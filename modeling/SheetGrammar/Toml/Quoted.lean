import SheetGrammar.Toml.Reader

/-!
Blanks, comments and quoted texts of TOML. Double quotes allow escapes, single quotes none; three of either allow line
breaks, and one or two quotes inside.
-/

namespace SheetGrammar.Toml

open Reader

def isBlank (c : Char) : Bool := c == ' ' || c == '\t'

/-- Control characters other than the tab stand nowhere. -/
def isPlain (c : Char) : Bool := c == '\t' || (' ' ≤ c && c ≤ '~') || '\x80' ≤ c

def blanks : Reader Unit := discard (run isBlank)

def newline : Reader Unit := char '\n' <|> exactly "\r\n"

def comment : Reader Unit := do
  char '#'
  discard (run isPlain)

/-- Blanks, comments and line breaks. -/
def gap : Reader Unit := discard (many (discard (run1 isBlank) <|> newline <|> (do comment; newline)))

/-- What may end a line: blanks, a comment, and a line break or the end of the text. -/
def lineEnd : Reader Unit := do
  blanks
  discard (maybe comment)
  newline <|> atEnd

def isHexDigit (c : Char) : Bool := c.isDigit || ('a' ≤ c && c ≤ 'f') || ('A' ≤ c && c ≤ 'F')

def hexDigitValue (c : Char) : Nat :=
  if c.isDigit then c.toNat - '0'.toNat
  else if 'a' ≤ c then c.toNat - 'a'.toNat + 10
  else c.toNat - 'A'.toNat + 10

/-- The character whose code has so many hexadecimal digits. -/
def codePoint (digits : Nat) : Reader Char := do
  let code := (← times isHexDigit digits).foldl (fun n c => 16 * n + hexDigitValue c) 0
  if code.isValidChar then return Char.ofNat code else failure

/-- The character that an escape stands for, behind its backslash. -/
def escaped : Reader Char := do
  match ← satisfy fun _ => true with
  | 'b' => return '\x08'
  | 't' => return '\t'
  | 'n' => return '\n'
  | 'f' => return '\x0c'
  | 'r' => return '\r'
  | '"' => return '"'
  | '\\' => return '\\'
  | 'u' => codePoint 4
  | 'U' => codePoint 8
  | _ => failure

def basicChar : Reader Char :=
  satisfy (fun c => isPlain c && c != '"' && c != '\\') <|> (do char '\\'; escaped)

def literalChar : Reader Char := satisfy fun c => isPlain c && c != '\''

/-- A text between quotes on one line. -/
def quoted : Reader String :=
  (do char '"'; let text ← many basicChar; char '"'; return String.ofList text) <|>
    (do char '\''; let text ← many literalChar; char '\''; return String.ofList text)

/-- A line break that a backslash hides, with the blanks and line breaks that follow it. -/
def hiddenBreak : Reader Unit := do
  char '\\'
  blanks
  newline
  discard (many (discard (run1 isBlank) <|> newline))

/-- One or two quotes that do not end a text of several lines. -/
def innerQuotes (quote : Char) : Reader (List Char) := do
  let quotes ← run1 (· == quote)
  if quotes.length ≤ 2 then return quotes else failure

/-- A text between three quotes of a kind, by the reader of its other parts. -/
def tripled (quote : Char) (part : Reader (List Char)) : Reader String := do
  char quote
  char quote
  char quote
  discard (maybe newline)
  let parts ← many (part <|> innerQuotes quote <|> (do newline; return ['\n']))
  let quotes ← run (· == quote)
  if 3 ≤ quotes.length && quotes.length ≤ 5 then return String.ofList (parts.flatten ++ quotes.drop 3) else failure

def text : Reader String :=
  tripled '"' ((do return [← basicChar]) <|> (do hiddenBreak; return [])) <|>
    tripled '\'' (do return [← literalChar]) <|> quoted

end SheetGrammar.Toml
