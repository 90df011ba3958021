import Mathlib.Data.List.Basic
import SheetGrammar.Proofs.ReaderStates

/-!
The canonical text of a grammar is read as the grammar without its marks. Written text never runs together: a word is
followed by a blank, a mark or the end of the text, and so it is cut where it was written.

- `cuts_writeAtom`: whatever an atom consists of, what is written for it is one token, and the token stands for the
  atom.
- `cuts_write`: what is written for a grammar is cut into the leaves of a derivation of the grammar without its marks.
- `parse_render`: so reading undoes writing.
-/

namespace SheetGrammar

namespace Grammar

theorem erase_eq (g : Grammar) : g.erase = (g.mapChildren erase).withMark {} := rewrite_eq _ g

/-- The nodes of a grammar without its marks are those of the grammar without theirs. -/
theorem nodes_erase (g : Grammar) : g.erase.nodes = g.nodes.map erase :=
  nodes_rewrite fun n _ => children_rewrite (children_withMark {}) n

theorem WellFormed.erase {g : Grammar} (h : g.WellFormed) : g.erase.WellFormed :=
  WellFormed.rewrite (fun _ => wellFormed_withMark.mpr) h

end Grammar

namespace Canonical

/-! ## Cutting one token -/

/-- From `offset` on, `written` is cut into `ts` when `rest` comes after it. -/
def Cuts (offset : Nat) (written rest : List Char) (ts : List Token) (next : Nat) : Prop :=
  ∀ found, scan offset found (written ++ rest) = scan next (ts.reverse ++ found) rest

theorem Cuts.append {offset middle next : Nat} {first second rest : List Char} {ts us : List Token}
    (h : Cuts offset first (second ++ rest) ts middle) (h' : Cuts middle second rest us next) :
    Cuts offset (first ++ second) rest (ts ++ us) next := by
  intro found
  rw [List.append_assoc, h, h', List.reverse_append, List.append_assoc]

theorem cuts_space (offset : Nat) (rest : List Char) : Cuts offset [' '] rest [] (offset + 1) := by
  intro found
  rw [List.singleton_append, scan]
  rfl

/-- What is written with a blank between is cut there. -/
theorem Cuts.spaced {offset middle next : Nat} {first second rest : List Char} {ts us : List Token}
    (h : Cuts offset first (' ' :: (second ++ rest)) ts middle) (h' : Cuts (middle + 1) second rest us next) :
    Cuts offset (first ++ ' ' :: second) rest (ts ++ us) next :=
  h.append ((cuts_space middle _).append h')

def Delimited : List Char → Prop
  | [] => True
  | c :: _ => isWordChar c = false

theorem delimited_colon (rest : List Char) : Delimited (':' :: rest) := (by decide : isWordChar ':' = false)

theorem delimited_space (rest : List Char) : Delimited (' ' :: rest) := (by decide : isWordChar ' ' = false)

theorem delimited_close (rest : List Char) : Delimited (')' :: rest) := (by decide : isWordChar ')' = false)

theorem scan_first {offset : Nat} {found : List Token} {c : Char} {rest lexeme after : List Char} {kind : Kind}
    (hsep : isSeparator c = false) (h : first c rest = .ok (kind, lexeme, after)) :
    scan offset found (c :: rest) =
      scan (offset + (String.ofList lexeme).utf8ByteSize) (⟨kind, String.ofList lexeme, offset⟩ :: found) after := by
  rw [scan]
  simp only [hsep, Bool.false_eq_true, if_false]
  split
  · next herror => rw [h] at herror; cases herror
  · next hok =>
    rw [h] at hok
    cases hok
    rfl

/-- The token that a text begins with, if it does so whatever follows that meets a condition. -/
theorem cuts_first {c : Char} {written : List Char} {kind : Kind} {Follows : List Char → Prop}
    (hsep : isSeparator c = false)
    (h : ∀ rest, Follows rest → first c (written ++ rest) = .ok (kind, c :: written, rest)) (offset : Nat) :
    ∃ (leaf : Terminal kind) (next : Nat), leaf.token.lexeme = String.ofList (c :: written) ∧
      ∀ rest, Follows rest → Cuts offset (c :: written) rest [leaf.token] next :=
  ⟨⟨⟨kind, String.ofList (c :: written), offset⟩, rfl⟩, _, rfl, fun rest hrest _ => scan_first hsep (h rest hrest)⟩

theorem cuts_mark {c : Char} {kind : Kind} (h : markKind? c = some kind) (offset : Nat) :
    ∃ (leaf : Terminal kind) (next : Nat), ∀ rest, Cuts offset [c] rest [leaf.token] next := by
  have hsep : isSeparator c = false := by
    unfold markKind? at h
    split at h <;> first | rfl | cases h
  have hfirst (rest : List Char) (_ : True) : first c ([] ++ rest) = .ok (kind, [c], rest) := by simp [first, h]
  obtain ⟨leaf, next, -, hcuts⟩ := cuts_first hsep hfirst offset
  exact ⟨leaf, next, fun rest => hcuts rest trivial⟩

/-! ## Atoms -/

theorem isSeparator_of_isWordChar {c : Char} (h : isWordChar c = true) : isSeparator c = false := by
  rw [← Bool.not_eq_true]
  intro hsep
  simp only [isSeparator, Bool.or_eq_true, beq_iff_eq] at hsep
  rcases hsep with ((rfl | rfl) | rfl) | rfl <;> exact absurd h (by decide)

theorem markKind?_of_isWordChar {c : Char} (h : isWordChar c = true) : markKind? c = none := by
  unfold markKind?
  split <;> first | rfl | exact absurd h (by decide)

theorem ne_quote_of_isWordChar {c : Char} (h : isWordChar c = true) : c ≠ '"' := by
  rintro rfl
  exact absurd h (by decide)

/-- A word is taken to its end and no further. -/
theorem takeWhile_word {word rest : List Char} (h : ∀ c ∈ word, isWordChar c = true) (hrest : Delimited rest) :
    (word ++ rest).takeWhile isWordChar = word ∧ (word ++ rest).dropWhile isWordChar = rest := by
  rw [List.takeWhile_append_of_pos h, List.dropWhile_append_of_pos h]
  cases rest with
  | nil => simp
  | cons c rest =>
    have hc : isWordChar c = false := hrest
    simp [hc]

theorem cuts_word {word : List Char} (h : isWord word = true) (offset : Nat) :
    ∃ (leaf : Terminal .word) (next : Nat), leaf.token.lexeme = String.ofList word ∧
      ∀ rest, Delimited rest → Cuts offset word rest [leaf.token] next := by
  obtain ⟨hne, hall⟩ : word ≠ [] ∧ ∀ c ∈ word, isWordChar c = true := by simpa [isWord] using h
  cases word with
  | nil => exact absurd rfl hne
  | cons c word =>
    have hc : isWordChar c = true := hall c List.mem_cons_self
    apply cuts_first (isSeparator_of_isWordChar hc)
    intro rest hrest
    have hword := takeWhile_word (fun d hd => hall d (List.mem_cons_of_mem _ hd)) hrest
    simp [first, markKind?_of_isWordChar hc, ne_quote_of_isWordChar hc, hc, hword.1, hword.2]

theorem quotation_escape (taken atom rest : List Char) :
    quotation taken (escape atom ++ '"' :: rest) = (taken.reverse ++ escape atom, '"' :: rest) := by
  induction atom generalizing taken with
  | nil => simp [escape, quotation]
  | cons c atom ih =>
    rw [escape]
    split
    · next hc =>
      have hline : c ≠ '\n' := by rcases hc with rfl | rfl <;> decide
      simp [quotation, hline, ih]
    · next hc =>
      obtain ⟨hquote, hback⟩ := not_or.mp hc
      simp [quotation, hquote, hback, ih]

theorem unescape_escape (atom : List Char) : unescape (escape atom) = atom := by
  induction atom with
  | nil => rfl
  | cons c atom ih =>
    rw [escape]
    split
    · rw [unescape, ih]
    · next hc =>
      obtain ⟨-, hback⟩ := not_or.mp hc
      simp [unescape, hback, ih]

theorem cuts_quoted (atom : List Char) (offset : Nat) :
    ∃ (leaf : Terminal .quoted) (next : Nat), String.ofList (unquote leaf.token.lexeme.toList) = String.ofList atom ∧
      ∀ rest, Cuts offset ('"' :: (escape atom ++ ['"'])) rest [leaf.token] next := by
  have hfirst (rest : List Char) (_ : True) :
      first '"' ((escape atom ++ ['"']) ++ rest) = .ok (.quoted, '"' :: (escape atom ++ ['"']), rest) := by
    simp [first, markKind?, quotation_escape]
  obtain ⟨leaf, next, hlexeme, hcuts⟩ := cuts_first (by decide) hfirst offset
  refine ⟨leaf, next, ?_, fun rest => hcuts rest trivial⟩
  rw [hlexeme, String.toList_ofList, unquote, List.drop_one, List.tail_cons, List.dropLast_concat, unescape_escape]

/-- What is written for an atom is one token, which stands for the atom. -/
theorem cuts_writeAtom (atom : String) (offset : Nat) :
    ∃ (leaf : Atom) (next : Nat), leaf.text = atom ∧
      ∀ rest, Delimited rest → Cuts offset (writeAtom atom.toList) rest [leaf.token] next := by
  rw [writeAtom]
  split
  · next hword =>
    obtain ⟨leaf, next, hlexeme, hcuts⟩ := cuts_word hword offset
    exact ⟨.word leaf, next, hlexeme.trans String.ofList_toList, hcuts⟩
  · obtain ⟨leaf, next, htext, hcuts⟩ := cuts_quoted atom.toList offset
    exact ⟨.quoted leaf, next, htext.trans String.ofList_toList, fun rest _ => hcuts rest⟩

theorem cuts_keyword (head : Head) (offset : Nat) :
    ∃ (word : Keyword head) (next : Nat), ∀ rest, Delimited rest →
      Cuts offset head.word.toList rest [word.token] next := by
  have hword : isWord head.word.toList = true := by
    rcases head with (_ | _) | _ | _ | (_ | _) <;> decide
  obtain ⟨leaf, next, hlexeme, hcuts⟩ := cuts_word hword offset
  exact ⟨⟨leaf.token, leaf.kind_eq, hlexeme.trans String.ofList_toList⟩, next, hcuts⟩

/-! ## Grammars -/

/-- What is written for the value of a phrase is cut into the leaves of a derivation of it. -/
def CutsInto (p : Phrase) (value : p.Value) (written : List Char) : Prop :=
  ∀ offset, ∃ (d : Derivation p) (next : Nat), d.value = value ∧
    ∀ rest, Delimited rest → Cuts offset written rest d.tokens next

theorem delimited_writeParts (parts : List Grammar) {rest : List Char} (h : Delimited rest) :
    Delimited (writeParts parts ++ rest) := by
  cases parts with
  | nil => exact h
  | cons g parts => exact delimited_space _

theorem delimited_writeEntries (entries : List (String × Grammar)) {rest : List Char} (h : Delimited rest) :
    Delimited (writeEntries entries ++ rest) := by
  cases entries with
  | nil => exact h
  | cons entry entries => exact delimited_space _

theorem cuts_writeParts {parts : List Grammar} (ih : ∀ g ∈ parts, CutsInto .grammar g.erase (write g)) :
    CutsInto .grammars (parts.map Grammar.erase) (writeParts parts) := by
  induction parts with
  | nil =>
    intro offset
    exact ⟨.noGrammars, offset, rfl, fun _ _ _ => rfl⟩
  | cons g parts ihParts =>
    intro offset
    obtain ⟨d, o₁, hd, hg⟩ := ih g List.mem_cons_self (offset + 1)
    obtain ⟨ds, o₂, hds, hparts⟩ := ihParts (fun g' hg' => ih g' (List.mem_cons_of_mem _ hg')) o₁
    refine ⟨.grammars d ds, o₂, ?_, ?_⟩
    · rw [Derivation.value, hd, hds, List.map_cons]
    · intro rest hrest
      exact (cuts_space offset _).append ((hg _ (delimited_writeParts parts hrest)).append (hparts rest hrest))

theorem cuts_writeEntries {entries : List (String × Grammar)}
    (ih : ∀ entry ∈ entries, CutsInto .grammar entry.2.erase (write entry.2)) :
    CutsInto .definitions (entries.map fun entry => (entry.1, entry.2.erase)) (writeEntries entries) := by
  induction entries with
  | nil =>
    intro offset
    exact ⟨.noDefinitions, offset, rfl, fun _ _ _ => rfl⟩
  | cons entry entries ihEntries =>
    intro offset
    obtain ⟨name, g⟩ := entry
    obtain ⟨opening, o₁, hopening⟩ := cuts_mark (c := '(') rfl (offset + 1)
    obtain ⟨atom, o₂, hatom, hname⟩ := cuts_writeAtom name o₁
    obtain ⟨d, o₃, hd, hg⟩ := ih (name, g) List.mem_cons_self (o₂ + 1)
    obtain ⟨closing, o₄, hclosing⟩ := cuts_mark (c := ')') rfl o₃
    obtain ⟨ds, o₅, hds, hentries⟩ := ihEntries (fun entry he => ih entry (List.mem_cons_of_mem _ he)) o₄
    refine ⟨.definitions (.definition opening atom d closing) ds, o₅, ?_, ?_⟩
    · rw [Derivation.value, Derivation.value, hatom, hd, hds, List.map_cons]
    · intro rest hrest
      have hbody := (hg _ (delimited_close _)).append ((hclosing _).append (hentries rest hrest))
      have hentry := (hname _ (delimited_space _)).spaced hbody
      simpa [Derivation.tokens, writeEntries] using (cuts_space offset _).append ((hopening _).append hentry)

theorem cuts_parens {g : Grammar} {written : List Char} (h : CutsInto .form g written) :
    CutsInto .grammar g ('(' :: (written ++ [')'])) := by
  intro offset
  obtain ⟨opening, o₁, hopening⟩ := cuts_mark (c := '(') rfl offset
  obtain ⟨form, o₂, rfl, hform⟩ := h o₁
  obtain ⟨closing, o₃, hclosing⟩ := cuts_mark (c := ')') rfl o₂
  refine ⟨.parens opening form closing, o₃, rfl, ?_⟩
  intro rest _
  exact (hopening _).append ((hform _ (delimited_close _)).append (hclosing rest))

theorem cuts_combine (how : Combination) {parts : List Grammar}
    (h : CutsInto .grammars (parts.map Grammar.erase) (writeParts parts)) :
    CutsInto .form (.combine {} how (parts.map Grammar.erase)) ((combinationWord how).toList ++ writeParts parts) := by
  intro offset
  obtain ⟨word, o₁, hword⟩ := cuts_keyword (.combine how) offset
  obtain ⟨ds, o₂, hds, hparts⟩ := h o₁
  refine ⟨.combine how word ds, o₂, by rw [Derivation.value, hds], ?_⟩
  intro rest hrest
  exact (hword _ (delimited_writeParts parts hrest)).append (hparts rest hrest)

theorem cuts_table (scoping : Scoping) {entries : List (String × Grammar)}
    (h : CutsInto .definitions (entries.map fun entry => (entry.1, entry.2.erase)) (writeEntries entries)) :
    CutsInto .form (.table {} scoping (entries.map fun entry => (entry.1, entry.2.erase)))
      ((scopingWord scoping).toList ++ writeEntries entries) := by
  intro offset
  obtain ⟨word, o₁, hword⟩ := cuts_keyword (.table scoping) offset
  obtain ⟨ds, o₂, hds, hentries⟩ := h o₁
  refine ⟨.table scoping word ds, o₂, by rw [Derivation.value, hds], ?_⟩
  intro rest hrest
  exact (hword _ (delimited_writeEntries entries hrest)).append (hentries rest hrest)

theorem cuts_relabel (how : Relabelling) {body : Grammar} (h : CutsInto .grammar body.erase (write body)) :
    CutsInto .form (.relabel {} how body.erase) (writeRelabelling how ++ ' ' :: write body) := by
  intro offset
  cases how with
  | rename source target =>
    have hwrite : writeRelabelling (.rename source target) ++ ' ' :: write body = Head.rename.word.toList ++
        ' ' :: (writeAtom source.toList ++ ' ' :: (writeAtom target.toList ++ ' ' :: write body)) := by
      have hword : "rename ".toList = Head.rename.word.toList ++ [' '] := rfl
      unfold writeRelabelling
      rw [hword]
      simp only [List.append_assoc, List.cons_append, List.nil_append]
    obtain ⟨word, o₁, hword⟩ := cuts_keyword .rename offset
    obtain ⟨sourceAtom, o₂, rfl, hsource⟩ := cuts_writeAtom source (o₁ + 1)
    obtain ⟨targetAtom, o₃, rfl, htarget⟩ := cuts_writeAtom target (o₂ + 1)
    obtain ⟨d, o₄, hd, hbody⟩ := h (o₃ + 1)
    refine ⟨.rename word sourceAtom targetAtom d, o₄, by rw [Derivation.value, hd], ?_⟩
    intro rest hrest
    have hlast := (htarget _ (delimited_space _)).spaced (hbody rest hrest)
    have hargs := (hsource _ (delimited_space _)).spaced hlast
    rw [hwrite]
    exact (hword _ (delimited_space _)).spaced hargs
  | single tape =>
    have hwrite : writeRelabelling (.single tape) ++ ' ' :: write body =
        Head.single.word.toList ++ ' ' :: (writeAtom tape.toList ++ ' ' :: write body) := by
      have hword : "single ".toList = Head.single.word.toList ++ [' '] := rfl
      unfold writeRelabelling
      rw [hword]
      simp only [List.append_assoc, List.cons_append, List.nil_append]
    obtain ⟨word, o₁, hword⟩ := cuts_keyword .single offset
    obtain ⟨atom, o₂, rfl, htape⟩ := cuts_writeAtom tape (o₁ + 1)
    obtain ⟨d, o₃, hd, hbody⟩ := h (o₂ + 1)
    refine ⟨.single word atom d, o₃, by rw [Derivation.value, hd], ?_⟩
    intro rest hrest
    have hargs := (htape _ (delimited_space _)).spaced (hbody rest hrest)
    rw [hwrite]
    exact (hword _ (delimited_space _)).spaced hargs

/-- What is written for a grammar is cut into the leaves of a derivation of the grammar without its marks. -/
theorem cuts_write (g : Grammar) : CutsInto .grammar g.erase (write g) := by
  induction g with
  | epsilon m =>
    intro offset
    obtain ⟨leaf, next, hcuts⟩ := cuts_mark (c := 'ε') rfl offset
    exact ⟨.epsilon leaf, next, rfl, fun rest _ => hcuts rest⟩
  | null m =>
    intro offset
    obtain ⟨leaf, next, hcuts⟩ := cuts_mark (c := '∅') rfl offset
    exact ⟨.null leaf, next, rfl, fun rest _ => hcuts rest⟩
  | literal m tape text =>
    intro offset
    obtain ⟨tapeAtom, o₁, rfl, htape⟩ := cuts_writeAtom tape offset
    obtain ⟨colon, o₂, hcolon⟩ := cuts_mark (c := ':') rfl o₁
    obtain ⟨textAtom, o₃, rfl, htext⟩ := cuts_writeAtom text o₂
    refine ⟨.literal tapeAtom colon textAtom, o₃, rfl, ?_⟩
    intro rest hrest
    exact (htape _ (delimited_colon _)).append ((hcolon _).append (htext rest hrest))
  | embed m symbol =>
    intro offset
    obtain ⟨dollar, o₁, hdollar⟩ := cuts_mark (c := '$') rfl offset
    obtain ⟨atom, o₂, rfl, hatom⟩ := cuts_writeAtom symbol o₁
    refine ⟨.embed dollar atom, o₂, rfl, ?_⟩
    intro rest hrest
    exact (hdollar _).append (hatom rest hrest)
  | combine m how parts ih =>
    rw [Grammar.erase_eq, write, ← List.append_assoc]
    exact cuts_parens (cuts_combine how (cuts_writeParts ih))
  | relabel m how body ih =>
    have hwrite : writeRelabelling how ++ ' ' :: (write body ++ [')']) =
        (writeRelabelling how ++ ' ' :: write body) ++ [')'] := by
      simp
    rw [Grammar.erase_eq, write, hwrite]
    exact cuts_parens (cuts_relabel how ih)
  | table m scoping entries ih =>
    rw [Grammar.erase_eq, write, ← List.append_assoc]
    exact cuts_parens (cuts_table scoping (cuts_writeEntries ih))

/-- The canonical text of a grammar has a derivation of the grammar without its marks. -/
theorem tokens_render {g : Grammar} (distinct : g.WellFormed) :
    ∃ d : Derivation .grammar, tokens g.render = .ok d.tokens ∧ d.value = g.erase ∧ d.Distinct := by
  obtain ⟨d, next, hvalue, hcuts⟩ := cuts_write g 0
  refine ⟨d, ?_, hvalue, ?_⟩
  · have hscan := hcuts [] trivial []
    rw [List.append_nil, List.append_nil, scan, List.reverse_reverse] at hscan
    rw [tokens, Grammar.render, String.toList_ofList, hscan]
  · rw [Derivation.distinct_iff, hvalue]
    exact distinct.erase

theorem parse_of_tokens {text : String} {d : Derivation .grammar} (htokens : tokens text = .ok d.tokens)
    (hd : d.Distinct) : Grammar.parse text = .ok d.value := by
  rw [Grammar.parse, htokens]
  exact parseTokens_eq_ok_iff.mpr ⟨d, rfl, rfl, hd⟩

end Canonical

namespace Grammar

open Canonical

/-- Reading undoes writing: the canonical text of a grammar, whatever its names and texts are made of, is read as the
grammar without its marks. -/
theorem parse_render (g : Grammar) (distinct : g.WellFormed) : parse g.render = .ok g.erase := by
  obtain ⟨d, htokens, hvalue, hd⟩ := tokens_render distinct
  rw [← hvalue]
  exact parse_of_tokens htokens hd

/-- With names and texts that are empty or made of blanks, quotes, backslashes, line feeds and marks, and with a word
of a form for a name. -/
theorem parse_render_quoted :
    let g : Grammar := .table {} .nested
      [("", .literal { tapes := some (.singleton "a b") } "a b" "\n\\\""),
        (".all", .combine {} .alternation [.epsilon {}, .embed {} "ε:$(∅)", .combine {} .sequence []]),
        ("seq", .relabel {} (.rename "\u2028" "coll") (.relabel {} (.single "\\") (.null {}))),
          ("q", .table {} .flat [])]
    g.WellFormed ∧ parse g.render = .ok g.erase := by
  intro g
  have distinct : g.WellFormed := by decide +kernel
  exact ⟨distinct, parse_render g distinct⟩

end Grammar

end SheetGrammar
