/-!
Reading from the front of a text. A reader takes characters or fails; a failed alternative takes nothing.
-/

namespace SheetGrammar.Toml

abbrev Reader := StateT (List Char) Option

namespace Reader

def satisfy (allowed : Char → Bool) : Reader Char
  | c :: rest => if allowed c then some (c, rest) else none
  | [] => none

def char (c : Char) : Reader Unit := discard (satisfy (· == c))

def exactly (text : String) : Reader Unit := text.toList.forM char

def run (allowed : Char → Bool) : Reader (List Char) := fun text =>
  some (text.takeWhile allowed, text.dropWhile allowed)

/-- The longest run of characters of a class, and not an empty one. -/
def run1 (allowed : Char → Bool) : Reader (List Char) := do
  let taken ← run allowed
  if taken.isEmpty then failure else return taken

def times (allowed : Char → Bool) : Nat → Reader (List Char)
  | 0 => pure []
  | n + 1 => do return (← satisfy allowed) :: (← times allowed n)

def atEnd : Reader Unit
  | [] => some ((), [])
  | _ :: _ => none

variable {α : Type}

def maybe (item : Reader α) : Reader (Option α) := (some <$> item) <|> pure none

/-- As many items as there are. It ends at an item that takes nothing. -/
def manyFrom (item : Reader α) (text : List Char) : List α × List Char :=
  match item text with
  | none => ([], text)
  | some (a, rest) =>
    if rest.length < text.length then
      let (items, after) := manyFrom item rest
      (a :: items, after)
    else ([], text)
termination_by text.length

def many (item : Reader α) : Reader (List α) := fun text => some (manyFrom item text)

/-- At least one item, with a character between any two. -/
def separated1 (item : Reader α) (separator : Char) : Reader (List α) := do
  let first ← item
  return first :: (← many (do char separator; item))

def separated (item : Reader α) (separator : Char) : Reader (List α) := separated1 item separator <|> pure []

end Reader

end SheetGrammar.Toml
