import SheetGrammar.Proofs.EarliestErrors

/-!
Spans are offsets and lengths in bytes. `Text.slice?` is the part of a text at a span, read off its bytes, whatever
made the span.

- `Text.slice?_append`, `Text.exists_cons_of_slice?`: a part of a text is at the bytes between the parts around it, and
  a character that a text shows is the character there.
- `Lexed.pairwise`, `Lexed.exists_split`, `Lexed.covers_or_separator`: the tokens of a lexed text follow each other,
  stand where they say, and leave separators only.
- `Faithful`: the tokens are parts of the text, one after the other, with separators left over and nothing else.
- `spans_faithful`: tokens, places without one and errors of the reader, as parts of the text they are about.
-/

namespace SheetGrammar

/-! ## Slices of a text -/

namespace Text

/-- The part of a text at a span of bytes, if the span lies within the text and ends between characters. -/
def slice? (text : String) (offset length : Nat) : Option String :=
  if offset + length ≤ text.utf8ByteSize then String.fromUTF8? (text.toByteArray.extract offset (offset + length))
    else none

/-- A span behind the first part of a text is one of the rest. -/
theorem slice?_append_right (before rest : String) (length : Nat) :
    slice? (before ++ rest) before.utf8ByteSize length = slice? rest 0 length := by
  have hbytes : (before ++ rest).toByteArray.extract before.utf8ByteSize (before.utf8ByteSize + length) =
      rest.toByteArray.extract 0 length := by
    have hshift := @ByteArray.extract_append_size_add before.toByteArray rest.toByteArray 0 length
    rwa [String.size_toByteArray, Nat.add_zero, ← String.toByteArray_append] at hshift
  simp only [slice?, hbytes, String.utf8ByteSize_append, Nat.add_le_add_iff_left, Nat.zero_add]

theorem slice?_append_left (part after : String) : slice? (part ++ after) 0 part.utf8ByteSize = some part := by
  have hle : 0 + part.utf8ByteSize ≤ (part ++ after).utf8ByteSize := by
    rw [String.utf8ByteSize_append]
    omega
  have hbytes : (part ++ after).toByteArray.extract 0 (0 + part.utf8ByteSize) = part.toByteArray := by
    rw [String.toByteArray_append, Nat.zero_add]
    exact ByteArray.extract_append_eq_left rfl
  rw [slice?, if_pos hle, hbytes, String.fromUTF8?, dif_pos part.isValidUTF8]
  rfl

theorem slice?_append (before part after : String) :
    slice? (before ++ part ++ after) before.utf8ByteSize part.utf8ByteSize = some part := by
  rw [String.append_assoc, slice?_append_right, slice?_append_left]

theorem toByteArray_of_slice? {text part : String} {offset length : Nat} (h : slice? text offset length = some part) :
    offset + length ≤ text.utf8ByteSize ∧ text.toByteArray.extract offset (offset + length) = part.toByteArray := by
  unfold slice? at h
  split at h
  · next hle =>
    unfold String.fromUTF8? at h
    split at h
    · cases h
      exact ⟨hle, rfl⟩
    · cases h
  · cases h

/-- The character that a text shows at its beginning is its first. -/
theorem exists_cons_of_slice? {cs : List Char} {c : Char}
    (h : slice? (String.ofList cs) 0 c.utf8Size = some (String.singleton c)) : ∃ rest, cs = c :: rest := by
  obtain ⟨hle, hbytes⟩ := toByteArray_of_slice? h
  cases cs with
  | nil =>
    have := c.utf8Size_pos
    simp at hle
    omega
  | cons d rest =>
    -- UTF-8 can be read from the front, and both characters are read there
    have hsplit :=
      @ByteArray.extract_eq_extract_append_extract (String.ofList (d :: rest)).toByteArray _ _ _ (Nat.zero_le _) hle
    rw [hbytes, ← String.size_toByteArray, ByteArray.extract_zero_size, String.toByteArray_singleton,
      String.toByteArray_ofList] at hsplit
    have hd : ((d :: rest).utf8Encode).utf8DecodeChar? 0 = some d := List.utf8DecodeChar?_utf8Encode_cons
    rw [hsplit, List.utf8DecodeChar?_utf8Encode_singleton_append] at hd
    cases hd
    exact ⟨rest, rfl⟩

end Text

namespace Canonical

def Token.stop (token : Token) : Nat := token.offset + token.length

def Token.Covers (token : Token) (i : Nat) : Prop := token.offset ≤ i ∧ i < token.stop

theorem utf8Size_of_isSeparator {c : Char} (h : isSeparator c = true) : c.utf8Size = 1 := by
  simp only [isSeparator, Bool.or_eq_true, beq_iff_eq] at h
  rcases h with ((rfl | rfl) | rfl) | rfl <;> rfl

namespace Lexed

variable {offset : Nat} {cs : List Char} {ts : List Token} {t : Token}

theorem le_offset (h : Lexed offset cs ts) (ht : t ∈ ts) : offset ≤ t.offset := by
  induction h with
  | done => cases ht
  | separator _ _ ih =>
    have := ih ht
    omega
  | token _ _ _ ih =>
    rcases List.mem_cons.mp ht with rfl | ht
    · exact Nat.le_refl _
    · have := ih ht
      omega

/-- Each token ends before the next begins. -/
theorem pairwise (h : Lexed offset cs ts) : ts.Pairwise fun s t => s.stop ≤ t.offset := by
  induction h with
  | done => exact .nil
  | separator _ _ ih => exact ih
  | token _ _ hrest ih =>
    refine .cons ?_ ih
    intro t ht
    rw [Token.stop, Token.length, String.utf8ByteSize_ofList]
    exact hrest.le_offset ht

/-- A token stands in the text where it says. -/
theorem exists_split (h : Lexed offset cs ts) (ht : t ∈ ts) :
    ∃ before after, cs = before ++ t.lexeme.toList ++ after ∧ t.offset = offset + String.utf8Len before ∧
      Lexeme t.kind t.lexeme.toList ∧ (t.kind = .word → Delimited after) := by
  induction h with
  | done => cases ht
  | @separator offset c rest ts _ _ ih =>
    obtain ⟨before, after, rfl, hoffset, hlexeme⟩ := ih ht
    refine ⟨c :: before, after, rfl, ?_, hlexeme⟩
    rw [hoffset, String.utf8Len_cons]
    omega
  | @token offset kind lexeme rest ts hlexeme hends _ ih =>
    rcases List.mem_cons.mp ht with rfl | ht
    · exact ⟨[], rest, by simp, rfl, by simpa using hlexeme, hends⟩
    · obtain ⟨before, after, rfl, hoffset, hlexeme⟩ := ih ht
      refine ⟨lexeme ++ before, after, by simp, ?_, hlexeme⟩
      rw [hoffset, String.utf8Len_append]
      omega

/-- A byte that no token covers is a separator. -/
theorem covers_or_separator (h : Lexed offset cs ts) {i : Nat} (hle : offset ≤ i)
    (hlt : i < offset + String.utf8Len cs) : (∃ t ∈ ts, t.Covers i) ∨
      ∃ before c after, cs = before ++ c :: after ∧ isSeparator c = true ∧ i = offset + String.utf8Len before := by
  induction h with
  | @done offset =>
    rw [String.utf8Len_nil] at hlt
    omega
  | @separator offset c rest ts hsep _ ih =>
    by_cases hi : i = offset
    · exact .inr ⟨[], c, rest, rfl, hsep, hi⟩
    · rw [String.utf8Len_cons] at hlt
      have hsize := utf8Size_of_isSeparator hsep
      rcases ih (by omega) (by omega) with hcovers | ⟨before, d, after, rfl, hd, rfl⟩
      · exact .inl hcovers
      · refine .inr ⟨c :: before, d, after, rfl, hd, ?_⟩
        rw [String.utf8Len_cons]
        omega
  | @token offset kind lexeme rest ts _ _ _ ih =>
    rw [String.utf8Len_append] at hlt
    by_cases hi : i < offset + String.utf8Len lexeme
    · refine .inl ⟨_, List.mem_cons_self, hle, ?_⟩
      rwa [Token.stop, Token.length, String.utf8ByteSize_ofList]
    · rcases ih (by omega) (by omega) with ⟨t, ht, hcovers⟩ | ⟨before, d, after, rfl, hd, rfl⟩
      · exact .inl ⟨t, List.mem_cons_of_mem _ ht, hcovers⟩
      · refine .inr ⟨lexeme ++ before, d, after, by simp, hd, ?_⟩
        rw [String.utf8Len_append]
        omega

end Lexed

/-! ## Tokens, and places without one, as parts of the text -/

structure Faithful (text : String) (ts : List Token) : Prop where
  ordered : ts.Pairwise fun s t => s.stop ≤ t.offset
  nonempty : ∀ t ∈ ts, 0 < t.length
  slices : ∀ t ∈ ts, Text.slice? text t.offset t.length = some t.lexeme
  spelled : ∀ t ∈ ts, Lexeme t.kind t.lexeme.toList
  separators : ∀ i < text.utf8ByteSize, (∀ t ∈ ts, ¬ t.Covers i) →
    ∃ c, isSeparator c = true ∧ Text.slice? text i 1 = some (String.singleton c)
  /-- No word could go on. -/
  maximal : ∀ t ∈ ts, t.kind = .word → ∀ c, Text.slice? text t.stop c.utf8Size = some (String.singleton c) →
    isWordChar c = false

def Unreadable.Located (text : String) (place : Unreadable) : Prop :=
  Text.slice? text place.offset place.lexeme.utf8ByteSize = some place.lexeme ∧
    ∃ before ts, Text.slice? text 0 place.offset = some before ∧ tokens before = .ok ts

def ParseError.Shows (text : String) (e : ParseError) (lexeme : String) : Prop :=
  ∃ offset length, e.span = some (offset, length) ∧ Text.slice? text offset length = some lexeme

/-- What the error is about is what the text shows at its span, and a name that is taken is the atom there. -/
def ParseError.Located (text : String) (e : ParseError) : Prop :=
  match e with
  | unreadable place => place.Located text
  | unexpected _ token | unknownForm token => e.Shows text token.lexeme
  | unexpectedEnd _ => e.span = none
  | duplicateSymbol name _ token => e.Shows text token.lexeme ∧ token.atom? = some name

theorem slice?_of_toList {text : String} {before part after : List Char} (h : text.toList = before ++ part ++ after) :
    Text.slice? text (String.utf8Len before) (String.utf8Len part) = some (String.ofList part) := by
  have hsplit : text = String.ofList before ++ String.ofList part ++ String.ofList after := by
    rw [← String.ofList_append, ← String.ofList_append, ← h, String.ofList_toList]
  rw [hsplit, ← String.utf8ByteSize_ofList, ← String.utf8ByteSize_ofList]
  exact Text.slice?_append _ _ _

/-- The character that a text shows behind its first part is the first of the rest. -/
theorem exists_cons_of_slice?_append {text : String} {before rest : List Char} {c : Char}
    (h : text.toList = before ++ rest)
    (hc : Text.slice? text (String.utf8Len before) c.utf8Size = some (String.singleton c)) :
    ∃ after, rest = c :: after := by
  have hsplit : text = String.ofList before ++ String.ofList rest := by
    rw [← String.ofList_append, ← h, String.ofList_toList]
  rw [hsplit, ← String.utf8ByteSize_ofList, Text.slice?_append_right] at hc
  exact Text.exists_cons_of_slice? hc

theorem Lexeme.utf8Len_pos {kind : Kind} {lexeme : List Char} (h : Lexeme kind lexeme) : 0 < String.utf8Len lexeme := by
  obtain ⟨c, rest, rfl, -⟩ := h.exists_cons
  rw [String.utf8Len_cons]
  have := c.utf8Size_pos
  omega

theorem Lexed.faithful {text : String} {ts : List Token} (h : Lexed 0 text.toList ts) : Faithful text ts where
  ordered := h.pairwise
  nonempty t ht := by
    obtain ⟨_, _, _, _, hlexeme, -⟩ := h.exists_split ht
    rw [Token.length, ← String.utf8Len_toList]
    exact hlexeme.utf8Len_pos
  slices t ht := by
    obtain ⟨before, after, hsplit, hoffset, -⟩ := h.exists_split ht
    have hslice := slice?_of_toList hsplit
    rwa [String.utf8Len_toList, String.ofList_toList, ← Nat.zero_add (String.utf8Len before), ← hoffset] at hslice
  spelled t ht := by
    obtain ⟨_, _, _, _, hlexeme, -⟩ := h.exists_split ht
    exact hlexeme
  separators i hi huncovered := by
    rw [← String.utf8Len_toList, ← Nat.zero_add (String.utf8Len _)] at hi
    rcases h.covers_or_separator (Nat.zero_le i) hi with ⟨t, ht, hcovers⟩ | ⟨before, c, after, hsplit, hsep, rfl⟩
    · exact absurd hcovers (huncovered t ht)
    · refine ⟨c, hsep, ?_⟩
      rw [List.append_cons] at hsplit
      have hslice := slice?_of_toList hsplit
      rwa [String.utf8Len_cons, String.utf8Len_nil, utf8Size_of_isSeparator hsep, Nat.add_zero,
        ← Nat.zero_add (String.utf8Len before), ← String.singleton_eq_ofList] at hslice
  maximal t ht hword c hc := by
    obtain ⟨before, after, hsplit, hoffset, -, hends⟩ := h.exists_split ht
    have hstop : t.stop = String.utf8Len (before ++ t.lexeme.toList) := by
      rw [Token.stop, hoffset, Nat.zero_add, String.utf8Len_append, String.utf8Len_toList, Token.length]
    rw [hstop] at hc
    obtain ⟨rest, rfl⟩ := exists_cons_of_slice?_append hsplit hc
    exact hends hword

theorem Unreadable.located_of_tokens {text : String} {place : Unreadable} (h : tokens text = .error place) :
    place.Located text := by
  obtain ⟨before, after, us, hsplit, hoffset, hlexed⟩ := lexed_of_scan_error h
  rw [Nat.zero_add] at hoffset
  refine ⟨?_, String.ofList before, us, ?_, ?_⟩
  · have hslice := slice?_of_toList hsplit
    rwa [String.utf8Len_toList, String.ofList_toList, ← hoffset] at hslice
  · rw [List.append_assoc, ← List.nil_append before] at hsplit
    have hslice := slice?_of_toList hsplit
    rwa [String.utf8Len_nil, ← hoffset] at hslice
  · rwa [tokens_eq_ok_iff, String.toList_ofList]

theorem Faithful.shows {text : String} {ts : List Token} {token : Token} {e : ParseError} (h : Faithful text ts)
    (ht : token ∈ ts) (hspan : e.span = some (token.offset, token.length)) : e.Shows text token.lexeme :=
  ⟨token.offset, token.length, hspan, h.slices token ht⟩

/-- An error about one of the tokens is an error about the text there. -/
theorem ParseError.Earliest.located {text : String} {ts : List Token} {e : ParseError} (h : e.Earliest ts)
    (hts : Faithful text ts) : e.Located text := by
  cases e with
  | unreadable _ => exact h.elim
  | unexpected expected token =>
    obtain ⟨before, after, rfl, -⟩ := h
    exact hts.shows (by simp) rfl
  | unexpectedEnd _ => rfl
  | unknownForm token =>
    obtain ⟨before, after, rfl, -⟩ := h
    exact hts.shows (by simp) rfl
  | duplicateSymbol name scoping token =>
    obtain ⟨before, after, opening, inner, head, earlier, atom, body, closing, rfl, rfl, rfl, -⟩ := h
    exact ⟨hts.shows (by simp [Derivation.tokens]) rfl, atom.atom?_token⟩

/-- Nothing of a text is lost between its tokens, and every error says where in the text it is and what stands there. -/
theorem spans_faithful (text : String) :
    (∀ ts, tokens text = .ok ts → Faithful text ts) ∧
      (∀ place, tokens text = .error place → place.Located text) ∧
      ∀ e, Grammar.parse text = .error e → e.Located text := by
  refine ⟨fun ts h => (tokens_eq_ok_iff.mp h).faithful, fun place h => Unreadable.located_of_tokens h, ?_⟩
  intro e h
  cases hlex : tokens text with
  | ok ts =>
    have hts := (tokens_eq_ok_iff.mp hlex).faithful
    rcases step_or_finish_of_parse_error hlex h with ⟨before, token, after, last, rfl, hrun, hstep⟩
      | ⟨last, hrun, hfinish⟩
    · exact (earliest_of_step hlex hrun hstep).located hts
    · exact (earliest_of_finish hlex hrun hfinish).located hts
  | error place =>
    rw [Grammar.parse, hlex] at h
    cases h
    exact Unreadable.located_of_tokens hlex

/-- A quotation that is not closed, behind characters of several bytes. -/
theorem spans_faithful_open_quote :
    let text := "(alt ∅ \"é\\\"\" ε \"ü)"
    let place : Unreadable := ⟨"\"ü)", 19⟩
    tokens text = .error place ∧ place.Located text := by
  intro text place
  have lexed : tokens text = .error place := by decide +kernel
  exact ⟨lexed, (spans_faithful text).2.1 place lexed⟩

end Canonical

end SheetGrammar
