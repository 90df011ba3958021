import SheetGrammar.Text.Blank

/-!
Atoms of the canonical text: names of tapes and symbols, and the texts of literals. An atom made of word characters is
written as it is; any other is put in quotes, where a backslash stands before a quote or a backslash of the atom's own.
-/

namespace SheetGrammar.Canonical

/-- The characters that mean something by themselves. -/
def isMark (c : Char) : Bool :=
  c == '(' || c == ')' || c == ':' || c == '"' || c == '$' || c == '\\' || c == 'ε' || c == '∅'

def isWordChar (c : Char) : Bool := !Text.isBlank c && !isMark c

def isWord (atom : List Char) : Bool := !atom.isEmpty && atom.all isWordChar

def escape : List Char → List Char
  | [] => []
  | c :: rest => if c = '"' ∨ c = '\\' then '\\' :: c :: escape rest else c :: escape rest

def writeAtom (atom : List Char) : List Char :=
  if isWord atom then atom else '"' :: (escape atom ++ ['"'])

/-- A backslash gives the character after it, whatever that is. -/
def unescape : List Char → List Char
  | '\\' :: c :: rest => c :: unescape rest
  | ['\\'] => []
  | c :: rest => c :: unescape rest
  | [] => []

/-- The text of a quoted lexeme, quotes included in it. -/
def unquote (lexeme : List Char) : List Char := unescape (lexeme.drop 1).dropLast

def atomText (atom : String) : String := String.ofList (writeAtom atom.toList)

end SheetGrammar.Canonical
