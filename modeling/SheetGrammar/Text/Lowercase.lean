import SheetGrammar.Text.CaseTable
import SheetGrammar.Text.Ranges

/-!
Lower-casing of whole texts. Each character is mapped on its own, by the rules of Unicode that hold in every language,
with one exception that looks around: a capital sigma at the end of a word becomes the final sigma. "At the end of a
word" means that the nearest character before it that is not case-ignorable is a cased one, and that the nearest such
character after it is not.
-/

namespace SheetGrammar.Text

def isCased (c : Char) : Bool := inRanges casedRanges c

def isCaseIgnorable (c : Char) : Bool := inRanges caseIgnorableRanges c

/-- The lower-case form of a code point, itself if it has none. -/
def lowerCode (n : Nat) : Nat :=
  match caseRuns.find? (·.covers n) with
  | some run => run.target + (n - run.first)
  | none => n

/-- The lower-case form of a character. Only the capital I with a dot above has one of two characters. -/
def lowerChar (c : Char) : List Char :=
  if c.toNat < 0x80 then [c.toLower]
  else if c = 'İ' then ['i', '\u0307']
  else [Char.ofNat (lowerCode c.toNat)]

/-- Whether the first character that is not case-ignorable is a cased one. -/
def meetsCased (cs : List Char) : Bool :=
  match cs.dropWhile isCaseIgnorable with
  | [] => false
  | c :: _ => isCased c

/-- Whether a letter between the given characters (those before it nearest first) ends a word. -/
def endsWord (before after : List Char) : Bool := meetsCased before && !meetsCased after

/-- Lower-cases the characters that follow `before`, which is nearest first. -/
def lowerChars (before : List Char) : List Char → List Char
  | [] => []
  | c :: after =>
    (if c = 'Σ' then [if endsWord before after then 'ς' else 'σ'] else lowerChar c) ++ lowerChars (c :: before) after

def lowercase (s : String) : String := String.ofList (lowerChars [] s.toList)

end SheetGrammar.Text
