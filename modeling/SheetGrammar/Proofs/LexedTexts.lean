import Mathlib.Data.String.Basic
import SheetGrammar.Proofs.RoundTrip

/-!
How a text is cut into tokens, said without the scanner. `Lexeme` are the classes of tokens, and `Lexed` says that
characters are a row of lexemes, with separators between them or nothing, in which no word could go on.

- `first_eq_ok_iff`, `tokens_eq_ok_iff`: what is taken first is a lexeme that cannot go on, and so the scanner cuts a
  text exactly as `Lexed` has it.
- `lexed_of_scan_error`: where it stops, what stands before is lexed.
- `Lexed.append`, `Lexed.exists_beginning`: lexed texts are put together at any place that ends a word, and taken apart
  behind any token.
-/

namespace SheetGrammar.Canonical

/-! ## Classes of tokens -/

/-- The inside of a quoted token: characters other than a quote or a backslash, and pairs of a backslash and any
character but a line feed. -/
inductive Quotation : List Char → Prop
  | nil : Quotation []
  | plain {c : Char} {rest : List Char} : c ≠ '"' → c ≠ '\\' → Quotation rest → Quotation (c :: rest)
  | escaped {c : Char} {rest : List Char} : c ≠ '\n' → Quotation rest → Quotation ('\\' :: c :: rest)

inductive Lexeme : Kind → List Char → Prop
  | mark {c : Char} {kind : Kind} : markKind? c = some kind → Lexeme kind [c]
  | quoted {inside : List Char} : Quotation inside → Lexeme .quoted ('"' :: (inside ++ ['"']))
  | word {word : List Char} : isWord word = true → Lexeme .word word

theorem Lexeme.exists_cons {kind : Kind} {lexeme : List Char} (h : Lexeme kind lexeme) :
    ∃ c rest, lexeme = c :: rest ∧ isSeparator c = false := by
  cases h with
  | @mark c _ hmark =>
    refine ⟨c, [], rfl, ?_⟩
    unfold markKind? at hmark
    split at hmark <;> first | rfl | cases hmark
  | quoted _ => exact ⟨_, _, rfl, rfl⟩
  | word hword =>
    obtain ⟨hne, hall⟩ : lexeme ≠ [] ∧ ∀ c ∈ lexeme, isWordChar c = true := by simpa [isWord] using hword
    obtain ⟨c, rest, rfl⟩ := List.exists_cons_of_ne_nil hne
    exact ⟨c, rest, rfl, isSeparator_of_isWordChar (hall c List.mem_cons_self)⟩

/-- A quotation is taken to its end and no further. -/
theorem Quotation.quotation_eq {inside : List Char} (h : Quotation inside) (taken after : List Char) :
    quotation taken (inside ++ '"' :: after) = (taken.reverse ++ inside, '"' :: after) := by
  induction h generalizing taken with
  | nil => simp [quotation]
  | plain hquote hback _ ih => simp [quotation, hquote, hback, ih]
  | escaped hline _ ih => simp [quotation, hline, ih]

/-- What is taken is a quotation. -/
theorem exists_quotation (taken rest : List Char) :
    ∃ inside, Quotation inside ∧ (quotation taken rest).1 = taken.reverse ++ inside := by
  fun_induction quotation taken rest with
  | case1 taken rest => exact ⟨[], .nil, by simp⟩
  | case2 taken c rest hline ih =>
    obtain ⟨inside, hinside, heq⟩ := ih
    exact ⟨'\\' :: c :: inside, .escaped hline hinside, by simp [heq]⟩
  | case3 taken => exact ⟨[], .nil, by simp⟩
  | case4 taken rest => exact ⟨[], .nil, by simp⟩
  | case5 taken c rest hpair hlone hquote ih =>
    obtain ⟨inside, hinside, heq⟩ := ih
    have hback : c ≠ '\\' := by
      rintro rfl
      cases rest with
      | nil => exact hlone rfl rfl
      | cons d rest => exact hpair d rest rfl rfl
    exact ⟨c :: inside, .plain hquote hback hinside, by simp [heq]⟩
  | case6 taken => exact ⟨[], .nil, by simp⟩

theorem Delimited.of_append {first second : List Char} (h : Delimited (first ++ second)) : Delimited first := by
  cases first with
  | nil => trivial
  | cons c rest => exact h

theorem Delimited.append {first second : List Char} (h : Delimited first) (h' : Delimited second) :
    Delimited (first ++ second) := by
  cases first with
  | nil => exact h'
  | cons c rest => exact h

theorem delimited_dropWhile (rest : List Char) : Delimited (rest.dropWhile isWordChar) := by
  have h := List.head?_dropWhile_not isWordChar rest
  cases hdrop : rest.dropWhile isWordChar with
  | nil => trivial
  | cons c after =>
    rw [hdrop] at h
    exact h

theorem markKind?_ne_word (c : Char) : markKind? c ≠ some .word := by
  unfold markKind?
  split <;> simp

theorem lexeme_of_first {c : Char} {rest lexeme after : List Char} {kind : Kind}
    (h : first c rest = .ok (kind, lexeme, after)) : Lexeme kind lexeme ∧ (kind = .word → Delimited after) := by
  unfold first at h
  split at h
  · next mark hmark =>
    cases h
    exact ⟨.mark hmark, fun hword => absurd (hword ▸ hmark) (markKind?_ne_word c)⟩
  · split at h
    · obtain ⟨inside, hinside, htaken⟩ := exists_quotation [] rest
      split at h
      · next inside' after' hq =>
        cases h
        rw [hq] at htaken
        cases htaken
        exact ⟨.quoted hinside, fun hword => by cases hword⟩
      · cases h
    · split at h
      · next hc =>
        cases h
        exact ⟨.word (by simp [isWord, hc]), fun _ => delimited_dropWhile rest⟩
      · cases h

/-- What is taken first is a lexeme, and if it is a word, it could not go on. -/
theorem first_eq_ok_iff {c : Char} {rest lexeme after : List Char} {kind : Kind} :
    first c rest = .ok (kind, lexeme, after) ↔
      Lexeme kind lexeme ∧ lexeme ++ after = c :: rest ∧ (kind = .word → Delimited after) := by
  constructor
  · intro h
    obtain ⟨hlexeme, hends⟩ := lexeme_of_first h
    exact ⟨hlexeme, first_append h, hends⟩
  · rintro ⟨hlexeme, hwhole, hends⟩
    cases hlexeme with
    | mark hmark =>
      cases hwhole
      simp [first, hmark]
    | quoted hinside =>
      simp only [List.cons_append, List.append_assoc, List.nil_append, List.cons.injEq] at hwhole
      obtain ⟨rfl, rfl⟩ := hwhole
      simp [first, markKind?, hinside.quotation_eq]
    | word hword =>
      obtain ⟨hne, hall⟩ : lexeme ≠ [] ∧ ∀ c ∈ lexeme, isWordChar c = true := by simpa [isWord] using hword
      obtain ⟨d, word, rfl⟩ := List.exists_cons_of_ne_nil hne
      cases hwhole
      obtain ⟨hc, hall⟩ := List.forall_mem_cons.mp hall
      have htake := takeWhile_word hall (hends rfl)
      simp [first, markKind?_of_isWordChar hc, ne_quote_of_isWordChar hc, hc, htake.1, htake.2]

/-- Characters that make no token stand at the head of the text. -/
theorem exists_append_of_first_error {c : Char} {rest lexeme : List Char} (h : first c rest = .error lexeme) :
    ∃ after, c :: rest = lexeme ++ after := by
  unfold first at h
  split at h
  · cases h
  · split at h
    · next hc =>
      split at h
      · cases h
      · next inside after _ hq =>
        cases h
        have hwhole : inside ++ after = rest := by simpa [hq] using quotation_append [] rest
        exact ⟨after, by rw [hc, ← hwhole, List.cons_append]⟩
    · split at h
      · cases h
      · cases h
        exact ⟨rest, rfl⟩

/-! ## Texts -/

inductive Lexed : Nat → List Char → List Token → Prop
  | done {offset : Nat} : Lexed offset [] []
  | separator {offset : Nat} {c : Char} {rest : List Char} {ts : List Token} :
      isSeparator c = true → Lexed (offset + c.utf8Size) rest ts → Lexed offset (c :: rest) ts
  | token {offset : Nat} {kind : Kind} {lexeme after : List Char} {ts : List Token} :
      Lexeme kind lexeme → (kind = .word → Delimited after) → Lexed (offset + String.utf8Len lexeme) after ts →
      Lexed offset (lexeme ++ after) (⟨kind, String.ofList lexeme, offset⟩ :: ts)

theorem scan_separator {offset : Nat} {found : List Token} {c : Char} {rest : List Char} (h : isSeparator c = true) :
    scan offset found (c :: rest) = scan (offset + c.utf8Size) found rest := by
  rw [scan, if_pos h]

theorem Lexed.scan_eq {offset : Nat} {cs : List Char} {ts : List Token} (h : Lexed offset cs ts) (found : List Token) :
    scan offset found cs = .ok (found.reverse ++ ts) := by
  induction h generalizing found with
  | done => rw [scan, List.append_nil]
  | separator hsep _ ih => rw [scan_separator hsep, ih]
  | @token offset kind lexeme after ts hlexeme hends _ ih =>
    obtain ⟨c, rest, rfl, hsep⟩ := hlexeme.exists_cons
    have hfirst := first_eq_ok_iff.mpr ⟨hlexeme, List.cons_append, hends⟩
    rw [List.cons_append, scan_first hsep hfirst, String.utf8ByteSize_ofList, ih, List.reverse_cons, List.append_assoc]
    rfl

/-- The scanner cuts a text into its lexemes. -/
theorem lexed_of_scan {offset : Nat} {found ts : List Token} {cs : List Char} (h : scan offset found cs = .ok ts) :
    ∃ us, ts = found.reverse ++ us ∧ Lexed offset cs us := by
  fun_induction scan offset found cs with
  | case1 offset found =>
    cases h
    exact ⟨[], by simp, .done⟩
  | case2 offset found c rest hsep ih =>
    obtain ⟨us, hts, hlexed⟩ := ih h
    exact ⟨us, hts, .separator hsep hlexed⟩
  | case3 => cases h
  | case4 offset found c rest hsep kind lexeme after hfirst token ih =>
    obtain ⟨us, rfl, hlexed⟩ := ih h
    obtain ⟨hlexeme, hwhole, hends⟩ := first_eq_ok_iff.mp hfirst
    refine ⟨token :: us, by simp, ?_⟩
    rw [← hwhole]
    refine .token hlexeme hends ?_
    rwa [← String.utf8ByteSize_ofList]

theorem tokens_eq_ok_iff {text : String} {ts : List Token} : tokens text = .ok ts ↔ Lexed 0 text.toList ts := by
  constructor
  · intro h
    obtain ⟨us, rfl, hlexed⟩ := lexed_of_scan h
    exact hlexed
  · intro h
    exact h.scan_eq []

/-- Where the scanner stops, the text shows what it reports, and the text before is lexed. -/
theorem lexed_of_scan_error {offset : Nat} {found : List Token} {cs : List Char} {place : Unreadable}
    (h : scan offset found cs = .error place) :
    ∃ before after us, cs = before ++ place.lexeme.toList ++ after ∧ place.offset = offset + String.utf8Len before ∧
      Lexed offset before us := by
  fun_induction scan offset found cs with
  | case1 => cases h
  | case2 offset found c rest hsep ih =>
    obtain ⟨before, after, us, rfl, hoffset, hlexed⟩ := ih h
    refine ⟨c :: before, after, us, rfl, ?_, .separator hsep hlexed⟩
    rw [hoffset, String.utf8Len_cons]
    omega
  | case3 offset found c rest hsep lexeme hfirst =>
    cases h
    obtain ⟨after, hafter⟩ := exists_append_of_first_error hfirst
    exact ⟨[], after, [], by simp [hafter], rfl, .done⟩
  | case4 offset found c rest hsep kind lexeme after hfirst token ih =>
    obtain ⟨before, behind, us, rfl, hoffset, hlexed⟩ := ih h
    obtain ⟨hlexeme, hwhole, hends⟩ := first_eq_ok_iff.mp hfirst
    have hlength : token.length = String.utf8Len lexeme := String.utf8ByteSize_ofList lexeme
    rw [hlength] at hoffset hlexed
    refine ⟨lexeme ++ before, behind, token :: us, ?_, ?_, ?_⟩
    · rw [← hwhole]
      simp
    · rw [hoffset, String.utf8Len_append]
      omega
    · rw [List.append_assoc] at hends
      exact .token hlexeme (fun hword => (hends hword).of_append) hlexed

namespace Lexed

variable {offset : Nat} {cs first second : List Char} {ts us : List Token}

/-- A lexed text goes on with another one, if this does not begin with a character of a word. -/
theorem append (h : Lexed offset first ts) (hends : Delimited second)
    (h' : Lexed (offset + String.utf8Len first) second us) : Lexed offset (first ++ second) (ts ++ us) := by
  induction h with
  | done => exact h'
  | @separator offset c rest ts hsep _ ih =>
    refine .separator hsep (ih ?_)
    rwa [String.utf8Len_cons, Nat.add_comm _ c.utf8Size, ← Nat.add_assoc] at h'
  | @token offset kind lexeme after ts hlexeme hafter _ ih =>
    rw [List.append_assoc]
    refine .token hlexeme (fun hword => (hafter hword).append hends) (ih ?_)
    rwa [String.utf8Len_append, ← Nat.add_assoc] at h'

/-- The first tokens of a lexed text are the tokens of its beginning. -/
theorem exists_beginning (h : Lexed offset cs (ts ++ us)) :
    ∃ before after, cs = before ++ after ∧ Lexed offset before ts := by
  generalize hall : ts ++ us = all at h
  induction h generalizing ts with
  | done => exact ⟨[], [], rfl, by rw [(List.append_eq_nil_iff.mp hall).1]; exact .done⟩
  | @separator offset c rest _ hsep _ ih =>
    obtain ⟨before, after, rfl, hlexed⟩ := ih hall
    exact ⟨c :: before, after, rfl, .separator hsep hlexed⟩
  | @token offset kind lexeme after _ hlexeme hafter _ ih =>
    cases ts with
    | nil => exact ⟨[], lexeme ++ after, rfl, .done⟩
    | cons t ts =>
      cases hall
      obtain ⟨before, behind, rfl, hlexed⟩ := ih rfl
      exact ⟨lexeme ++ before, behind, (List.append_assoc ..).symm,
        .token hlexeme (fun hword => (hafter hword).of_append) hlexed⟩

end Lexed

end SheetGrammar.Canonical
