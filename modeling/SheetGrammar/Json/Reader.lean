import SheetGrammar.Json.Token

/-!
Reading a JSON text. The reader takes one token at a time; its state is what it waits for and the arrays and objects
that are open around it, innermost first. Arrays and objects may nest only so deep.

A text that breaks off or goes wrong is not worthless: the state in which the reader was stuck tells which items or
fields of the outermost value were complete. What is decided by those, such as the tag of a tagged value, is decided
before the text is found wrong.
-/

namespace SheetGrammar.Json

inductive Frame where
  /-- The items so far, newest first. -/
  | items (done : List Value)
  /-- The fields so far, newest first, and the key that the value is for. -/
  | fields (done : List (String × Value)) (key : String)

inductive Awaited where
  | value
  /-- The first item, or the end of an empty array. -/
  | firstItem
  /-- A comma, or the end of the array. -/
  | moreItems (done : List Value)
  /-- The first key, or the end of an empty object. -/
  | firstKey
  /-- A key, after a comma. -/
  | key (done : List (String × Value))
  | colon (done : List (String × Value)) (key : String)
  /-- A comma, or the end of the object. -/
  | moreFields (done : List (String × Value))
  /-- Nothing: the value is complete. -/
  | nothing (v : Value)

structure State where
  awaited : Awaited
  frames : List Frame

namespace State

def start : State := ⟨.value, []⟩

/-- Hands a complete value to the innermost open array or object. -/
def deliver (v : Value) : List Frame → State
  | [] => ⟨.nothing v, []⟩
  | .items done :: frames => ⟨.moreItems (v :: done), frames⟩
  | .fields done key :: frames => ⟨.moreFields ((key, v) :: done), frames⟩

/-- Takes the first token of a value. Nothing opens inside `limit` open arrays and objects. -/
def beginValue (limit : Nat) (frames : List Frame) : Token → Option State
  | .scalar v => some (deliver v frames)
  | .string s => some (deliver (.string s) frames)
  | .openBracket => if frames.length < limit then some ⟨.firstItem, frames⟩ else none
  | .openBrace => if frames.length < limit then some ⟨.firstKey, frames⟩ else none
  | _ => none

/-- Takes one token, if it may stand here. -/
def step (limit : Nat) (state : State) (token : Token) : Option State :=
  match state.awaited, token with
  | .value, _ => beginValue limit state.frames token
  | .firstItem, .closeBracket => some (deliver (.array []) state.frames)
  | .firstItem, _ => beginValue limit (.items [] :: state.frames) token
  | .moreItems done, .comma => some ⟨.value, .items done :: state.frames⟩
  | .moreItems done, .closeBracket => some (deliver (.array done.reverse) state.frames)
  | .firstKey, .closeBrace => some (deliver (.object []) state.frames)
  | .firstKey, .string key => some ⟨.colon [] key, state.frames⟩
  | .key done, .string key => some ⟨.colon done key, state.frames⟩
  | .colon done key, .colon => some ⟨.value, .fields done key :: state.frames⟩
  | .moreFields done, .comma => some ⟨.key done, state.frames⟩
  | .moreFields done, .closeBrace => some (deliver (.object done.reverse) state.frames)
  | _, _ => none

end State

inductive Reading where
  /-- One value, and whether anything follows it. -/
  | complete (v : Value) (trailing : Bool)
  /-- The state in which nothing fits any more. -/
  | broken (state : State)

def State.run (limit : Nat) (state : State) (tokens : List Token) : Reading :=
  match state.awaited, tokens with
  | .nothing v, rest => .complete v (!rest.isEmpty)
  | _, [] => .broken state
  | _, token :: rest =>
    match state.step limit token with
    | some next => next.run limit rest
    | none => .broken state

def read (limit : Nat) (text : String) : Reading := State.start.run limit (tokens text)

/-- The value of a text that holds one value and nothing else. -/
def parse? (limit : Nat) (text : String) : Option Value :=
  match read limit text with
  | .complete v false => some v
  | _ => none

/-! ## What a broken text still tells -/

/-- The outermost value of a text that could not be read to its end. `begun` is an empty array or object in place of
one that was begun and not completed. -/
inductive Fragment where
  | nothing
  | items (done : List Value) (begun : Option Value)
  /-- The complete fields, and the key of the next with what was begun of its value. -/
  | fields (done : List (String × Value)) (next : Option (String × Option Value))

def Value.begun : Value → Option Value
  | .array _ => some (.array [])
  | .object _ => some (.object [])
  | _ => none

/-- What is read of an array or object up to the first item or field in which `limit` levels, its own included, are
exceeded. -/
def Value.fragment (limit : Nat) : Value → Fragment
  | .array items =>
    .items (items.takeWhile (·.depth < limit)) ((items.find? (limit ≤ ·.depth)).bind begun)
  | .object fields =>
    .fields (fields.takeWhile (·.2.depth < limit))
      ((fields.find? (limit ≤ ·.2.depth)).map fun (key, v) => (key, v.begun))
  | _ => .nothing

def Awaited.begun : Awaited → Option Value
  | .value | .nothing _ => none
  | .firstItem | .moreItems _ => some (.array [])
  | .firstKey | .key _ | .colon _ _ | .moreFields _ => some (.object [])

def Frame.begun : Frame → Value
  | .items _ => .array []
  | .fields _ _ => .object []

/-- The outermost frame, with what is open directly inside it. -/
def outermost (begun : Option Value) : List Frame → Option (Frame × Option Value)
  | [] => none
  | [frame] => some (frame, begun)
  | frame :: rest => outermost (some frame.begun) rest

def State.fragment (state : State) : Fragment :=
  match outermost state.awaited.begun state.frames with
  | some (.items done, begun) => .items done.reverse begun
  | some (.fields done key, begun) => .fields done.reverse (some (key, begun))
  | none =>
    match state.awaited with
    | .value | .nothing _ => .nothing
    | .firstItem => .items [] none
    | .moreItems done => .items done.reverse none
    | .firstKey => .fields [] none
    | .key done | .moreFields done => .fields done.reverse none
    | .colon done key => .fields done.reverse (some (key, none))

end SheetGrammar.Json
