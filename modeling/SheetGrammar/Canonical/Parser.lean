import SheetGrammar.Canonical.Token
import SheetGrammar.Grammar.Basic

/-!
Reading a grammar from its canonical text. The forms are

    grammar ::= ε | ∅ | atom ":" atom | "$" atom | "(" form ")"
    form    ::= seq grammar* | alt grammar* | rename atom atom grammar | single atom grammar
              | coll definition* | qual definition*
    definition ::= "(" atom grammar ")"

The reader takes one token at a time. Its state is what it waits for and the forms that are open around it, innermost
first; a grammar that is complete is handed to the innermost open form. So the state after some tokens says what may
come next, and a text goes wrong at the first token that its state does not take.
-/

namespace SheetGrammar

namespace Canonical

inductive Expected where
  | token (kind : Kind)
  | atom
  | grammar
  | endOfInput
deriving DecidableEq, Repr

def Expected.text : Expected → String
  | token kind => kind.name
  | atom => "a name or text"
  | grammar => "a grammar"
  | endOfInput => "end of input"

def scopingWord : Scoping → String
  | .nested => "coll"
  | .flat => "qual"

inductive ParseError where
  /-- A place where no token starts. -/
  | unreadable (place : Unreadable)
  | unexpected (expected : Expected) (found : Token)
  | unexpectedEnd (expected : Expected)
  /-- A form whose head is no form's word. -/
  | unknownForm (head : Token)
  /-- A definition whose name is taken in the same form. -/
  | duplicateSymbol (name : String) (scoping : Scoping) (token : Token)
deriving DecidableEq, Repr

namespace ParseError

def text : ParseError → String
  | unreadable place => "Unrecognized token: '" ++ place.lexeme ++ "'"
  | unexpected expected found => "Expected " ++ expected.text ++ ", found '" ++ found.lexeme ++ "'"
  | unexpectedEnd expected => "Unexpected end of input; expected " ++ expected.text
  | unknownForm head => "Unknown form `" ++ head.lexeme ++ "`"
  | duplicateSymbol name scoping _ => "Duplicate symbol `" ++ name ++ "` in " ++ scopingWord scoping

def code : ParseError → String
  | unreadable _ => "gramble::text::lexer"
  | unexpected _ _ => "gramble::text::unexpected_token"
  | unexpectedEnd _ => "gramble::text::unexpected_eof"
  | unknownForm _ => "gramble::text::unknown_form"
  | duplicateSymbol _ _ _ => "gramble::text::duplicate_symbol"

def help : ParseError → Option String
  | unknownForm _ => some "Forms are seq, alt, rename, single, coll and qual"
  | _ => none

/-- Offset and length in bytes of what the error is about. -/
def span : ParseError → Option (Nat × Nat)
  | unreadable place => some (place.offset, place.lexeme.utf8ByteSize)
  | unexpected _ token | unknownForm token | duplicateSymbol _ _ token => some (token.offset, token.length)
  | unexpectedEnd _ => none

end ParseError

/-- A form that is open and waits for a grammar. -/
inductive Frame where
  /-- A combination with the parts it has, newest first. -/
  | part (how : Combination) (parts : List Grammar)
  | body (how : Relabelling)
  /-- A table with the entries it has, and the name that the grammar is for. -/
  | entry (scoping : Scoping) (entries : SymbolTable Grammar) (token : Token) (name : String)

inductive Awaited where
  | grammar
  /-- The name after a dollar. -/
  | symbol
  | colon (tape : String)
  | text (tape : String)
  /-- The word of a form. -/
  | head
  | source
  | target (source : String)
  | single
  /-- One more part, or the end of the combination. -/
  | part (how : Combination) (parts : List Grammar)
  /-- The end of a relabelling. -/
  | close (g : Grammar)
  /-- One more entry, or the end of the table. -/
  | entry (scoping : Scoping) (entries : SymbolTable Grammar)
  | name (scoping : Scoping) (entries : SymbolTable Grammar)
  /-- The end of an entry. -/
  | closeEntry (scoping : Scoping) (entries : SymbolTable Grammar) (token : Token) (name : String) (g : Grammar)
  /-- The end of the text. -/
  | finish (g : Grammar)

structure State where
  awaited : Awaited
  frames : List Frame

namespace State

def start : State := ⟨.grammar, []⟩

/-- Hands a complete grammar to the innermost open form. -/
def deliver (g : Grammar) : List Frame → State
  | [] => ⟨.finish g, []⟩
  | .part how parts :: frames => ⟨.part how (g :: parts), frames⟩
  | .body how :: frames => ⟨.close (.relabel {} how g), frames⟩
  | .entry scoping entries token name :: frames => ⟨.closeEntry scoping entries token name g, frames⟩

/-- Takes the first token of a grammar. -/
def beginGrammar (frames : List Frame) (token : Token) : Except ParseError State :=
  match token.kind with
  | .epsilon => .ok (deliver (.epsilon {}) frames)
  | .null => .ok (deliver (.null {}) frames)
  | .dollar => .ok ⟨.symbol, frames⟩
  | .openParen => .ok ⟨.head, frames⟩
  | _ =>
    match token.atom? with
    | some tape => .ok ⟨.colon tape, frames⟩
    | none => .error (.unexpected .grammar token)

/-- Takes the word that says which form begins. -/
def beginForm (frames : List Frame) (token : Token) : Except ParseError State :=
  if token.kind = .word then
    match token.lexeme with
    | "seq" => .ok ⟨.part .sequence [], frames⟩
    | "alt" => .ok ⟨.part .alternation [], frames⟩
    | "rename" => .ok ⟨.source, frames⟩
    | "single" => .ok ⟨.single, frames⟩
    | "coll" => .ok ⟨.entry .nested [], frames⟩
    | "qual" => .ok ⟨.entry .flat [], frames⟩
    | _ => .error (.unknownForm token)
  else .error (.unexpected (.token .word) token)

def withAtom (token : Token) (next : String → State) : Except ParseError State :=
  match token.atom? with
  | some atom => .ok (next atom)
  | none => .error (.unexpected .atom token)

def withKind (kind : Kind) (token : Token) (next : Except ParseError State) : Except ParseError State :=
  if token.kind = kind then next else .error (.unexpected (.token kind) token)

def step (state : State) (token : Token) : Except ParseError State :=
  match state.awaited with
  | .grammar => beginGrammar state.frames token
  | .symbol => withAtom token fun symbol => deliver (.embed {} symbol) state.frames
  | .colon tape => withKind .colon token (.ok ⟨.text tape, state.frames⟩)
  | .text tape => withAtom token fun text => deliver (.literal {} tape text) state.frames
  | .head => beginForm state.frames token
  | .source => withAtom token fun source => ⟨.target source, state.frames⟩
  | .target source => withAtom token fun target => ⟨.grammar, .body (.rename source target) :: state.frames⟩
  | .single => withAtom token fun tape => ⟨.grammar, .body (.single tape) :: state.frames⟩
  | .part how parts =>
    if token.kind = .closeParen then .ok (deliver (.combine {} how parts.reverse) state.frames)
    else beginGrammar (.part how parts :: state.frames) token
  | .close g => withKind .closeParen token (.ok (deliver g state.frames))
  | .entry scoping entries =>
    if token.kind = .closeParen then .ok (deliver (.table {} scoping entries) state.frames)
    else withKind .openParen token (.ok ⟨.name scoping entries, state.frames⟩)
  | .name scoping entries =>
    withAtom token fun name => ⟨.grammar, .entry scoping entries token name :: state.frames⟩
  | .closeEntry scoping entries nameToken name g =>
    withKind .closeParen token
      (if entries.contains name then .error (.duplicateSymbol name scoping nameToken)
        else .ok ⟨.entry scoping (entries ++ [(name, g)]), state.frames⟩)
  | .finish _ => .error (.unexpected .endOfInput token)

/-- What is missing when the text ends here, or the grammar that is complete. -/
def finish (state : State) : Except ParseError Grammar :=
  match state.awaited with
  | .grammar => .error (.unexpectedEnd .grammar)
  | .symbol | .text _ | .source | .target _ | .single | .name _ _ => .error (.unexpectedEnd .atom)
  | .colon _ => .error (.unexpectedEnd (.token .colon))
  | .head => .error (.unexpectedEnd (.token .word))
  | .part _ _ | .close _ | .entry _ _ | .closeEntry _ _ _ _ _ => .error (.unexpectedEnd (.token .closeParen))
  | .finish g => .ok g

def run (state : State) : List Token → Except ParseError State
  | [] => .ok state
  | token :: rest =>
    match state.step token with
    | .ok next => next.run rest
    | .error e => .error e

end State

def parseTokens (tokens : List Token) : Except ParseError Grammar :=
  match State.start.run tokens with
  | .ok state => state.finish
  | .error e => .error e

end Canonical

def Grammar.parse (text : String) : Except Canonical.ParseError Grammar :=
  match Canonical.tokens text with
  | .ok tokens => Canonical.parseTokens tokens
  | .error place => .error (.unreadable place)

end SheetGrammar
