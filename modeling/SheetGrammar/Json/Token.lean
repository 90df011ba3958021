import SheetGrammar.Json.Value

/-!
Tokens of a JSON text. Where no token starts, the list ends with `malformed`: what stands before that place has still
been read.
-/

namespace SheetGrammar.Json

inductive Token where
  | openBrace
  | closeBrace
  | openBracket
  | closeBracket
  | comma
  | colon
  | string (s : String)
  /-- A number, a truth value or null. -/
  | scalar (v : Value)
  | malformed

def hexValue? (c : Char) : Option Nat :=
  if '0' ≤ c ∧ c ≤ '9' then some (c.toNat - '0'.toNat)
  else if 'a' ≤ c ∧ c ≤ 'f' then some (c.toNat - 'a'.toNat + 10)
  else if 'A' ≤ c ∧ c ≤ 'F' then some (c.toNat - 'A'.toNat + 10)
  else none

def unit? (a b c d : Char) : Option Nat := do
  let a ← hexValue? a
  let b ← hexValue? b
  let c ← hexValue? c
  let d ← hexValue? d
  return ((a * 16 + b) * 16 + c) * 16 + d

def simpleEscape? (c : Char) : Option Char :=
  match c with
  | '"' => some '"'
  | '\\' => some '\\'
  | '/' => some '/'
  | 'b' => some '\x08'
  | 'f' => some '\x0c'
  | 'n' => some '\n'
  | 'r' => some '\r'
  | 't' => some '\t'
  | _ => none

def isHighSurrogate (n : Nat) : Bool := 0xD800 ≤ n && n ≤ 0xDBFF

def isLowSurrogate (n : Nat) : Bool := 0xDC00 ≤ n && n ≤ 0xDFFF

/-- One character of a string's inside, and what follows it. -/
def stringChar? : List Char → Option (Char × List Char)
  | '\\' :: 'u' :: a :: b :: c :: d :: rest =>
    match unit? a b c d with
    | none => none
    | some n =>
      if isLowSurrogate n then none
      else if isHighSurrogate n then
        match rest with
        | '\\' :: 'u' :: a' :: b' :: c' :: d' :: rest' =>
          match unit? a' b' c' d' with
          | some low =>
            if isLowSurrogate low then some (Char.ofNat (0x10000 + (n - 0xD800) * 0x400 + (low - 0xDC00)), rest')
            else none
          | none => none
        | _ => none
      else some (Char.ofNat n, rest)
  | '\\' :: c :: rest => (simpleEscape? c).map fun e => (e, rest)
  | c :: rest => if c.toNat < 0x20 || c = '\\' || c = '"' then none else some (c, rest)
  | [] => none

theorem length_after_stringChar {cs rest : List Char} {c : Char} (h : stringChar? cs = some (c, rest)) :
    rest.length < cs.length := by
  have shorter : ∀ {d e : Char} {t u : List Char}, some (d, t) = some (e, u) → u = t := by
    intro d e t u he
    exact (Prod.mk.inj (Option.some.inj he)).2.symm
  unfold stringChar? at h
  split at h
  · split at h
    · cases h
    · split at h
      · cases h
      · split at h
        · split at h
          · split at h
            · split at h
              · rw [shorter h]
                simp
                omega
              · cases h
            · cases h
          · cases h
        · rw [shorter h]
          simp
          omega
  · obtain ⟨e, -, he⟩ := Option.map_eq_some_iff.1 h
    cases he
    simp only [List.length_cons]
    omega
  · split at h
    · cases h
    · cases h
      simp
  · cases h

/-- The inside of a string up to its closing quote, and what follows that. `taken` is newest first. -/
def stringRest? (taken : List Char) : List Char → Option (String × List Char)
  | [] => none
  | c :: rest =>
    if c = '"' then some (String.ofList taken.reverse, rest)
    else
      match _h : stringChar? (c :: rest) with
      | some (d, after) => stringRest? (d :: taken) after
      | none => none
termination_by cs => cs.length
decreasing_by exact length_after_stringChar _h

theorem length_after_string {taken cs rest : List Char} {s : String} (h : stringRest? taken cs = some (s, rest)) :
    rest.length < cs.length := by
  induction hn : cs.length using Nat.strongRecOn generalizing taken cs with
  | _ n ih =>
    unfold stringRest? at h
    split at h
    · cases h
    · split at h
      · cases h
        simp [← hn]
      · split at h
        · next hc =>
          have hlt := length_after_stringChar hc
          have := ih _ (hn ▸ hlt) h rfl
          omega
        · cases h

def digits? (cs : List Char) : Option (List Char × List Char) :=
  if (cs.takeWhile Char.isDigit).isEmpty then none
  else some (cs.takeWhile Char.isDigit, cs.dropWhile Char.isDigit)

theorem length_after_digits {cs digits rest : List Char} (h : digits? cs = some (digits, rest)) :
    rest.length < cs.length := by
  unfold digits? at h
  split at h
  · cases h
  · next hne =>
    cases h
    have whole := congrArg List.length (List.takeWhile_append_dropWhile (p := Char.isDigit) (l := cs))
    rw [List.length_append] at whole
    have : 0 < (cs.takeWhile Char.isDigit).length := by
      rw [List.length_pos_iff]
      intro e
      simp [e] at hne
    omega

/-- Whether a text starts with a minus, and the text without it. -/
def minus : List Char → Bool × List Char
  | '-' :: rest => (true, rest)
  | cs => (false, cs)

theorem length_minus (cs : List Char) : (minus cs).2.length ≤ cs.length := by
  unfold minus
  split <;> simp

def exponentSign : List Char → Int × List Char
  | '+' :: rest => (1, rest)
  | '-' :: rest => (-1, rest)
  | cs => (1, cs)

theorem length_exponentSign (cs : List Char) : (exponentSign cs).2.length ≤ cs.length := by
  unfold exponentSign
  split <;> simp

/-- An optional exponent: a letter, a sign or none, and at least one digit. -/
def exponent? : List Char → Option (Option Int × List Char)
  | [] => some (none, [])
  | c :: rest =>
    if c = 'e' ∨ c = 'E' then
      (digits? (exponentSign rest).2).map fun (digits, after) =>
        (some ((exponentSign rest).1 * Numeral.digitsValue digits), after)
    else some (none, c :: rest)

theorem length_after_exponent {cs rest : List Char} {e : Option Int} (h : exponent? cs = some (e, rest)) :
    rest.length ≤ cs.length := by
  unfold exponent? at h
  split at h
  · cases h
    exact Nat.le_refl _
  · next c tail =>
    split at h
    · obtain ⟨⟨digits, after⟩, hd, he⟩ := Option.map_eq_some_iff.1 h
      cases he
      have h1 := length_after_digits hd
      have h2 := length_exponentSign tail
      simp
      omega
    · cases h
      exact Nat.le_refl _

def fraction? : List Char → Option (List Char × List Char)
  | '.' :: rest => digits? rest
  | cs => some ([], cs)

theorem length_after_fraction {cs digits rest : List Char} (h : fraction? cs = some (digits, rest)) :
    rest.length ≤ cs.length := by
  unfold fraction? at h
  split at h
  · have := length_after_digits h
    simp
    omega
  · cases h
    exact Nat.le_refl _

/-- A number at the start of a text, and what follows it. No digit may follow a leading zero. -/
def number? (cs : List Char) : Option (Number × List Char) :=
  match digits? (minus cs).2 with
  | none => none
  | some (whole, afterWhole) =>
    if whole.head? = some '0' ∧ 1 < whole.length then none
    else
      match fraction? afterWhole with
      | none => none
      | some (fraction, afterFraction) =>
        match exponent? afterFraction with
        | none => none
        | some (exponent, rest) =>
          (Number.ofNumeral? ⟨(minus cs).1, whole, fraction, exponent.getD 0⟩
            (fraction.isEmpty && exponent.isNone)).map fun n => (n, rest)

theorem length_after_number {cs rest : List Char} {n : Number} (h : number? cs = some (n, rest)) :
    rest.length < cs.length := by
  unfold number? at h
  split at h
  · cases h
  · next hw =>
    split at h
    · cases h
    · split at h
      · cases h
      · next hf =>
        split at h
        · cases h
        · next he =>
          obtain ⟨_, -, hr⟩ := Option.map_eq_some_iff.1 h
          cases hr
          have h1 := length_after_digits hw
          have h2 := length_minus cs
          have h3 := length_after_fraction hf
          have h4 := length_after_exponent he
          omega

/-- The first token of a text that starts with `c`, which is not blank, and what follows; none if no token starts
here. -/
def first? (c : Char) (rest : List Char) : Option (Token × List Char) :=
  match c, rest with
  | '\x7b', _ => some (.openBrace, rest)
  | '\x7d', _ => some (.closeBrace, rest)
  | '[', _ => some (.openBracket, rest)
  | ']', _ => some (.closeBracket, rest)
  | ',', _ => some (.comma, rest)
  | ':', _ => some (.colon, rest)
  | '"', _ => (stringRest? [] rest).map fun (s, after) => (.string s, after)
  | 't', 'r' :: 'u' :: 'e' :: after => some (.scalar (.bool true), after)
  | 'f', 'a' :: 'l' :: 's' :: 'e' :: after => some (.scalar (.bool false), after)
  | 'n', 'u' :: 'l' :: 'l' :: after => some (.scalar .null, after)
  | _, _ => (number? (c :: rest)).map fun (n, after) => (.scalar (.number n), after)

theorem length_after_first {c : Char} {rest after : List Char} {t : Token} (h : first? c rest = some (t, after)) :
    after.length < (c :: rest).length := by
  unfold first? at h
  split at h
  all_goals first
    | (cases h; simp; done)
    | (cases h; simp; omega)
    | skip
  · obtain ⟨⟨s, r⟩, hs, he⟩ := Option.map_eq_some_iff.1 h
    cases he
    have := length_after_string hs
    simp
    omega
  · obtain ⟨⟨n, r⟩, hn, he⟩ := Option.map_eq_some_iff.1 h
    cases he
    exact length_after_number hn

def isSpace (c : Char) : Bool := c == ' ' || c == '\t' || c == '\n' || c == '\r'

/-- Cuts a text into tokens, which follow those already found, newest first. -/
def scan (found : List Token) : List Char → List Token
  | [] => found.reverse
  | c :: rest =>
    if isSpace c then scan found rest
    else
      match _h : first? c rest with
      | some (token, after) => scan (token :: found) after
      | none => (Token.malformed :: found).reverse
termination_by text => text.length
decreasing_by
  · simp
  · exact length_after_first _h

def tokens (text : String) : List Token := scan [] text.toList

end SheetGrammar.Json
