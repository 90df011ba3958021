import SheetGrammar.Canonical.Atom

/-!
Tokens of the canonical text and how a text is cut into them. At each place the longest token is taken: a mark, a quoted
atom or a word. Space, tab, line feed and carriage return may stand between tokens; every other blank is out of place
outside quotes. Offsets and lengths count bytes of UTF-8.

- `first_append`, `first_ne_nil`: the first lexeme and what follows make up the text, and the lexeme is not empty.
-/

namespace SheetGrammar.Canonical

inductive Kind where
  | openParen
  | closeParen
  | colon
  | dollar
  | epsilon
  | null
  | quoted
  | word
deriving DecidableEq, Repr

def Kind.name : Kind → String
  | openParen => "LParen"
  | closeParen => "RParen"
  | colon => "Colon"
  | dollar => "Dollar"
  | epsilon => "Epsilon"
  | null => "Null"
  | quoted => "Quoted"
  | word => "Word"

structure Token where
  kind : Kind
  lexeme : String
  offset : Nat
deriving DecidableEq, Repr

namespace Token

def length (token : Token) : Nat := token.lexeme.utf8ByteSize

/-- The atom that a word or a quoted token stands for. -/
def atom? (token : Token) : Option String :=
  match token.kind with
  | .word => some token.lexeme
  | .quoted => some (String.ofList (unquote token.lexeme.toList))
  | _ => none

end Token

structure Unreadable where
  lexeme : String
  offset : Nat
deriving DecidableEq, Repr

def isSeparator (c : Char) : Bool := c == ' ' || c == '\t' || c == '\n' || c == '\r'

def markKind? (c : Char) : Option Kind :=
  match c with
  | '(' => some .openParen
  | ')' => some .closeParen
  | ':' => some .colon
  | '$' => some .dollar
  | 'ε' => some .epsilon
  | '∅' => some .null
  | _ => none

/-- Takes the inside of a quotation as far as it goes: characters other than a quote or a backslash, and pairs of a
backslash and any character but a line feed. `taken` is newest first. -/
def quotation (taken : List Char) : List Char → List Char × List Char
  | '\\' :: c :: rest =>
    if c = '\n' then (taken.reverse, '\\' :: c :: rest) else quotation (c :: '\\' :: taken) rest
  | ['\\'] => (taken.reverse, ['\\'])
  | c :: rest => if c = '"' then (taken.reverse, c :: rest) else quotation (c :: taken) rest
  | [] => (taken.reverse, [])

/-- The first lexeme of a text that starts with `c`, and what follows; or the characters that make no token. -/
def first (c : Char) (rest : List Char) : Except (List Char) (Kind × List Char × List Char) :=
  match markKind? c with
  | some kind => .ok (kind, [c], rest)
  | none =>
    if c = '"' then
      match quotation [] rest with
      | (inside, '"' :: after) => .ok (.quoted, '"' :: (inside ++ ['"']), after)
      | (inside, _) => .error ('"' :: inside)
    else if isWordChar c then .ok (.word, c :: rest.takeWhile isWordChar, rest.dropWhile isWordChar)
    else .error [c]

theorem quotation_append (taken rest : List Char) :
    (quotation taken rest).1 ++ (quotation taken rest).2 = taken.reverse ++ rest := by
  fun_induction quotation taken rest <;> simp_all

theorem first_append {c : Char} {rest lexeme after : List Char} {kind : Kind}
    (h : first c rest = .ok (kind, lexeme, after)) : lexeme ++ after = c :: rest := by
  unfold first at h
  split at h
  · cases h
    rfl
  · split at h
    · next hc =>
      have whole := quotation_append [] rest
      split at h
      · next inside after' hq =>
        cases h
        rw [hq] at whole
        simpa [hc] using whole
      · cases h
    · split at h
      · cases h
        simp
      · cases h

theorem first_ne_nil {c : Char} {rest lexeme after : List Char} {kind : Kind}
    (h : first c rest = .ok (kind, lexeme, after)) : lexeme ≠ [] := by
  unfold first at h
  split at h
  · cases h
    simp
  · split at h
    · split at h <;> cases h
      simp
    · split at h <;> cases h
      simp

theorem length_after_first {c : Char} {rest lexeme after : List Char} {kind : Kind}
    (h : first c rest = .ok (kind, lexeme, after)) : after.length < (c :: rest).length := by
  have whole := congrArg List.length (first_append h)
  have := List.length_pos_iff.2 (first_ne_nil h)
  rw [List.length_append] at whole
  omega

/-- Cuts a text that starts at `offset` into tokens, which follow those already found, newest first. -/
def scan (offset : Nat) (found : List Token) : List Char → Except Unreadable (List Token)
  | [] => .ok found.reverse
  | c :: rest =>
    if isSeparator c then scan (offset + c.utf8Size) found rest
    else
      match _h : first c rest with
      | .error lexeme => .error ⟨String.ofList lexeme, offset⟩
      | .ok (kind, lexeme, after) =>
        let token : Token := ⟨kind, String.ofList lexeme, offset⟩
        scan (offset + token.length) (token :: found) after
termination_by text => text.length
decreasing_by
  · simp
  · exact length_after_first _h

def tokens (text : String) : Except Unreadable (List Token) := scan 0 [] text.toList

end SheetGrammar.Canonical
