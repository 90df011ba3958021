import SheetGrammar.Toml.Scalar

/-!
TOML documents, line by line. Truth values, arrays and tables are kept; of other values only that they are there.
-/

namespace SheetGrammar.Toml

open Reader

abbrev Key := List String

inductive Value where
  | bool (b : Bool)
  /-- A text, a number, a date or a time. -/
  | scalar
  | array (items : List Value)
  | table (entries : List (Key × Value))

/-- Arrays and tables nest less deep than this, and a key has fewer names. -/
def depthLimit : Nat := 80

def isBareKeyChar (c : Char) : Bool := c.isAlphanum || c == '-' || c == '_'

def name : Reader String := quoted <|> (do return String.ofList (← run1 isBareKeyChar))

/-- Names with points between them; blanks may stand around each. -/
def key : Reader Key := do
  let names ← separated1 (do blanks; let n ← name; blanks; return n) '.'
  if names.length < depthLimit then return names else failure

/-- Of two entries of a table neither key continues the other. -/
def distinct : List Key → Bool
  | [] => true
  | key :: rest => rest.all (fun other => !(key.isPrefixOf other || other.isPrefixOf key)) && distinct rest

def scalar : Reader Value :=
  (do exactly "true"; return .bool true) <|> (do exactly "false"; return .bool false) <|>
    (do discard text <|> moment <|> float <|> integer <|> specialFloat; return .scalar)

/-- An array of elements; a comma may follow the last. -/
def array (element : Reader Value) : Reader Value := do
  char '['
  let items ← separated (do gap; let v ← element; gap; return v) ','
  unless items.isEmpty do discard (maybe (char ','))
  gap
  char ']'
  return .array items

def inlineTable (element : Reader Value) : Reader Value := do
  char '\x7b'
  let entries ← separated (do let k ← key; char '='; blanks; let v ← element; blanks; return (k, v)) ','
  blanks
  char '\x7d'
  if distinct (entries.map (·.1)) then return .table entries else failure

/-- A value in which arrays and tables nest up to so deep. -/
def valueWithin : Nat → Reader Value
  | 0 => scalar
  | depth + 1 => scalar <|> array (valueWithin depth) <|> inlineTable (valueWithin depth)

def value : Reader Value := valueWithin (depthLimit - 1)

inductive Line where
  | entry (key : Key) (value : Value)
  /-- The entries that follow are those of a table, or of one more table in an array of them. -/
  | header (key : Key) (repeated : Bool)

def headerLine : Reader Line := do
  let repeated ← (do exactly "[["; return true) <|> (do char '['; return false)
  let k ← key
  exactly (if repeated then "]]" else "]")
  lineEnd
  return .header k repeated

def entryLine : Reader Line := do
  let k ← key
  char '='
  blanks
  let v ← value
  lineEnd
  return .entry k v

/-- A line; an empty line or a comment says nothing. -/
def line : Reader (Option Line) := do
  blanks
  (do newline; return none) <|> (do comment; newline <|> atEnd; return none) <|> (some <$> headerLine) <|>
    (some <$> entryLine)

def document : Reader (List Line) := do
  discard (maybe (char '\uFEFF'))
  let lines ← many line
  blanks
  atEnd
  return lines.filterMap id

/-- The lines of a document, if it is well formed as far as single lines go. -/
def lines? (text : String) : Option (List Line) := (document text.toList).map (·.1)

end SheetGrammar.Toml
