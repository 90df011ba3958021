import SheetGrammar.Grammar.Literals
import SheetGrammar.Proofs.Annotation

/-!
The literals of a grammar, leaf by leaf. They are found by relabelling whole sets on the way up, where several tapes
may come to have one name and a text may come to stand twice; here each leaf is followed by itself, from its own tape
through the relabellings around it. Tape inference goes the same way with tapes alone, and takes out the renames that
have nothing to do. The three agree.

- `literals_eq_error_iff`: the fault is of the first node that hides its texts.
- `mem_literals`: what is found are the leaves, on the tapes that the relabellings around them lead to.
- `tapes_literals`, `literals_annotate`: the tapes with a text are those of the grammar, and taking out idle renames
  loses none.
- `literals_leaves`: all of it.
-/

namespace SheetGrammar

/-- The name of a tape after relabellings from the inside out, the innermost first. -/
def Relabelling.applyAll (around : List Relabelling) (tape : String) : String :=
  around.foldl (fun tape how => how.apply tape) tape

theorem Relabelling.applyAll_concat (around : List Relabelling) (how : Relabelling) (tape : String) :
    applyAll (around ++ [how]) tape = how.apply (applyAll around tape) := by
  rw [applyAll, List.foldl_append]
  rfl

namespace Grammar

variable {g n body : Grammar} {parts : List Grammar} {found given : LiteralMap} {fault : Fault}
    {around : List Relabelling}
  {tape text : String}

/-! ## Nodes that hide their texts -/

def hidesTexts : Grammar → Bool
  | null _ | embed _ _ | combine _ .alternation _ | table _ _ _ => true
  | epsilon _ | literal _ _ _ | combine _ .sequence _ | relabel _ _ _ => false

def refusal? (g : Grammar) : Option Fault := (g.nodes.find? hidesTexts).map unsupportedLiteral

theorem refusal?_sequence (m : Mark) (parts : List Grammar) :
    (combine m .sequence parts).refusal? = parts.findSome? refusal? := by
  rw [refusal?, nodes_eq, List.find?_cons_of_neg (by simp [hidesTexts]), List.find?_flatMap, List.map_findSome?]
  rfl

theorem refusal?_relabel (m : Mark) (how : Relabelling) (body : Grammar) :
    (relabel m how body).refusal? = body.refusal? := by
  rw [refusal?, nodes_eq, List.find?_cons_of_neg (by simp [hidesTexts]), children, List.flatMap_singleton, refusal?]

/-- A node that hides its texts is the first of its own nodes. -/
theorem literals_eq_error_iff_of_hidesTexts (h : g.hidesTexts = true) :
    g.literals = .error fault ↔ g.refusal? = some fault := by
  have hliterals : g.literals = .error g.unsupportedLiteral := by
    unfold hidesTexts at h
    split at h <;> first | rfl | cases h
  have hrefusal : g.refusal? = some g.unsupportedLiteral := by
    rw [refusal?, nodes_eq, List.find?_cons_of_pos h]
    rfl
  rw [hliterals, hrefusal, Except.error.injEq, Option.some.injEq]

theorem literalsOfParts_eq_error_iff (h : ∀ g ∈ parts, ∀ fault, g.literals = .error fault ↔ g.refusal? = some fault) :
    literalsOfParts given parts = .error fault ↔ parts.findSome? refusal? = some fault := by
  induction parts generalizing given with
  | nil => simp [literalsOfParts]
  | cons g rest ih =>
    obtain ⟨hg, hrest⟩ := List.forall_mem_cons.mp h
    rw [literalsOfParts, List.findSome?_cons]
    cases hl : g.literals with
    | error first => simp [(hg first).mp hl]
    | ok found =>
      have hnone : g.refusal? = none := Option.eq_none_iff_forall_ne_some.mpr fun fault hf => by
        rw [(hg fault).mpr hf] at hl
        cases hl
      rw [hnone, ← ih hrest]

/-- Literals cannot be read off exactly if a node hides its texts, and the first such node is to blame. -/
theorem literals_eq_error_iff : g.literals = .error fault ↔ g.refusal? = some fault := by
  induction g generalizing fault with
  | epsilon m => exact iff_of_false (by rintro ⟨⟩) (by rintro ⟨⟩)
  | null m => exact literals_eq_error_iff_of_hidesTexts rfl
  | literal m tape text => exact iff_of_false (by rintro ⟨⟩) (by rintro ⟨⟩)
  | embed m symbol => exact literals_eq_error_iff_of_hidesTexts rfl
  | combine m how parts ih =>
    cases how with
    | sequence => rw [literals, refusal?_sequence, literalsOfParts_eq_error_iff fun g hg fault => ih g hg]
    | alternation => exact literals_eq_error_iff_of_hidesTexts rfl
  | relabel m how body ih =>
    rw [literals, refusal?_relabel, ← ih]
    cases body.literals <;> simp
  | table m scoping entries ih => exact literals_eq_error_iff_of_hidesTexts rfl

theorem exists_literals (h : g.refusal? = none) : ∃ found, g.literals = .ok found := by
  cases hl : g.literals with
  | ok found => exact ⟨found, rfl⟩
  | error fault =>
    rw [literals_eq_error_iff, h] at hl
    cases hl

/-- If the literals of a grammar were read off, none of its nodes hides its texts. -/
theorem hidesTexts_of_mem_nodes (h : g.literals = .ok found) (hn : n ∈ g.nodes) : n.hidesTexts = false := by
  cases hfirst : g.nodes.find? hidesTexts with
  | none => simpa using List.find?_eq_none.mp hfirst n hn
  | some first =>
    have herror : g.literals = .error first.unsupportedLiteral :=
      literals_eq_error_iff.mpr (by rw [refusal?, hfirst]; rfl)
    rw [h] at herror
    cases herror

/-! ## Literals that were read off -/

theorem literalsOfParts_cons_eq_ok {rest : List Grammar} : literalsOfParts given (g :: rest) = .ok found ↔
    ∃ first, g.literals = .ok first ∧ literalsOfParts (given.merge first) rest = .ok found := by
  rw [literalsOfParts]
  cases g.literals <;> simp

theorem literals_relabel_eq_ok {m : Mark} {how : Relabelling} : (relabel m how body).literals = .ok found ↔
    ∃ inner, body.literals = .ok inner ∧ inner.rename how.source how.target = found := by
  rw [literals]
  cases body.literals <;> simp

/-- What is found in parts was there before or is found in one of them. -/
theorem mem_literalsOfParts (h : literalsOfParts given parts = .ok found) : text ∈ found.texts tape ↔
    text ∈ given.texts tape ∨ ∃ g ∈ parts, ∃ inner, g.literals = .ok inner ∧ text ∈ inner.texts tape := by
  induction parts generalizing given with
  | nil =>
    cases h
    simp
  | cons g rest ih =>
    obtain ⟨first, hfirst, hrest⟩ := literalsOfParts_cons_eq_ok.mp h
    simp [ih hrest, LiteralMap.mem_texts_merge, hfirst, or_assoc]

theorem exists_literals_of_mem (h : literalsOfParts given parts = .ok found) (hg : g ∈ parts) :
    ∃ inner, g.literals = .ok inner := by
  induction parts generalizing given with
  | nil => cases hg
  | cons first rest ih =>
    obtain ⟨inner, hfirst, hrest⟩ := literalsOfParts_cons_eq_ok.mp h
    rcases List.mem_cons.mp hg with rfl | hg
    · exact ⟨inner, hfirst⟩
    · exact ih hrest hg

theorem occupied_literalsOfParts (hparts : ∀ g ∈ parts, ∀ inner, g.literals = .ok inner → inner.Occupied)
    (hgiven : given.Occupied) (h : literalsOfParts given parts = .ok found) : found.Occupied := by
  induction parts generalizing given with
  | nil =>
    cases h
    exact hgiven
  | cons g rest ih =>
    obtain ⟨hg, hparts⟩ := List.forall_mem_cons.mp hparts
    obtain ⟨first, hfirst, hrest⟩ := literalsOfParts_cons_eq_ok.mp h
    exact ih hparts (hgiven.merge (hg first hfirst)) hrest

/-- No tape is found without a text. -/
theorem occupied_literals (h : g.literals = .ok found) : found.Occupied := by
  induction g generalizing found with
  | epsilon m =>
    cases h
    exact LiteralMap.occupied_empty
  | literal m tape text =>
    cases h
    exact LiteralMap.occupied_empty.insert tape text
  | combine m how parts ih =>
    cases how with
    | alternation => cases h
    | sequence => exact occupied_literalsOfParts (fun g hg _ => ih g hg) LiteralMap.occupied_empty h
  | relabel m how body ih =>
    obtain ⟨inner, hinner, rfl⟩ := literals_relabel_eq_ok.mp h
    exact (ih hinner).rename how.source how.target
  | null m => cases h
  | embed m symbol => cases h
  | table m scoping entries ih => cases h

/-- Parts that are each changed without a change of literals have the same literals together. -/
theorem literalsOfParts_map {change : Grammar → Grammar} (h : ∀ g ∈ parts, (change g).literals = g.literals) :
    literalsOfParts given (parts.map change) = literalsOfParts given parts := by
  induction parts generalizing given with
  | nil => rfl
  | cons g rest ih =>
    obtain ⟨hg, hrest⟩ := List.forall_mem_cons.mp h
    simp only [List.map_cons, literalsOfParts, hg, ih hrest]

/-! ## Leaves -/

/-- A literal leaf of a grammar, with the relabellings around it, the innermost first. -/
inductive Spells : Grammar → List Relabelling → String → String → Prop
  | literal (m : Mark) (tape text : String) : Spells (.literal m tape text) [] tape text
  | combine (m : Mark) (how : Combination) {parts : List Grammar} {g : Grammar} {around : List Relabelling}
      {tape text : String} :
      g ∈ parts → Spells g around tape text → Spells (.combine m how parts) around tape text
  | relabel (m : Mark) (how : Relabelling) {body : Grammar} {around : List Relabelling} {tape text : String} :
      Spells body around tape text → Spells (.relabel m how body) (around ++ [how]) tape text

theorem spells_combine {m : Mark} {how : Combination} :
    (combine m how parts).Spells around tape text ↔ ∃ g ∈ parts, g.Spells around tape text := by
  constructor
  · rintro (_ | ⟨_, _, hg, hleaf⟩)
    exact ⟨_, hg, hleaf⟩
  · rintro ⟨g, hg, hleaf⟩
    exact .combine m how hg hleaf

theorem spells_relabel {m : Mark} {how : Relabelling} :
    (relabel m how body).Spells around tape text ↔ ∃ inner, inner ++ [how] = around ∧ body.Spells inner tape text := by
  constructor
  · rintro (_ | _ | ⟨_, _, hleaf⟩)
    exact ⟨_, rfl, hleaf⟩
  · rintro ⟨inner, rfl, hleaf⟩
    exact .relabel m how hleaf

/-- What is found are the leaves, each on the tape that the relabellings around it lead to. -/
theorem mem_literals (h : g.literals = .ok found) : text ∈ found.texts tape ↔
    ∃ around source, g.Spells around source text ∧ Relabelling.applyAll around source = tape := by
  induction g generalizing found tape with
  | epsilon m =>
    cases h
    constructor
    · intro h
      cases h
    · rintro ⟨_, _, ⟨⟩, _⟩
  | literal m source text' =>
    cases h
    rw [LiteralMap.insert, LiteralMap.mem_texts_extend, SortedSet.mem_singleton]
    constructor
    · rintro (h | ⟨rfl, rfl⟩)
      · cases h
      · exact ⟨[], source, .literal m source text, rfl⟩
    · rintro ⟨_, _, ⟨⟩, rfl⟩
      exact .inr ⟨rfl, rfl⟩
  | combine m how parts ih =>
    cases how with
    | alternation => cases h
    | sequence =>
      rw [mem_literalsOfParts h]
      simp only [spells_combine]
      constructor
      · rintro (h | ⟨g, hg, inner, hinner, hmem⟩)
        · cases h
        obtain ⟨around, source, hleaf, htape⟩ := (ih g hg hinner).mp hmem
        exact ⟨around, source, ⟨g, hg, hleaf⟩, htape⟩
      · rintro ⟨around, source, ⟨g, hg, hleaf⟩, htape⟩
        obtain ⟨inner, hinner⟩ := exists_literals_of_mem h hg
        exact .inr ⟨g, hg, inner, hinner, (ih g hg hinner).mpr ⟨around, source, hleaf, htape⟩⟩
  | relabel m how body ih =>
    obtain ⟨inner, hinner, rfl⟩ := literals_relabel_eq_ok.mp h
    simp only [LiteralMap.mem_texts_rename, ih hinner, spells_relabel]
    constructor
    · rintro ⟨_, ⟨around, source, hleaf, rfl⟩, rfl⟩
      exact ⟨around ++ [how], source, ⟨around, rfl, hleaf⟩, Relabelling.applyAll_concat around how source⟩
    · rintro ⟨_, source, ⟨around, rfl, hleaf⟩, rfl⟩
      exact ⟨_, ⟨around, source, hleaf, rfl⟩, (Relabelling.applyAll_concat around how source).symm⟩
  | null m => cases h
  | embed m symbol => cases h
  | table m scoping entries ih => cases h

/-! ## Tapes -/

/-- The tapes with a text are the tapes of the grammar, whatever symbols stand for. -/
theorem tapes_literals (f : String → TapeSet) (h : g.literals = .ok found) : g.tapesWith f = found.tapes := by
  induction g generalizing found with
  | epsilon m =>
    cases h
    rfl
  | literal m tape text =>
    cases h
    rfl
  | combine m how parts ih =>
    cases how with
    | alternation => cases h
    | sequence =>
      refine SortedSet.ext fun tape => ?_
      rw [tapesWith_combine, TapeSet.mem_unionAll_map, (occupied_literals h).mem_tapes_iff]
      simp only [mem_literalsOfParts h]
      constructor
      · rintro ⟨g, hg, htape⟩
        obtain ⟨inner, hinner⟩ := exists_literals_of_mem h hg
        rw [ih g hg hinner, (occupied_literals hinner).mem_tapes_iff] at htape
        obtain ⟨text, htext⟩ := htape
        exact ⟨text, .inr ⟨g, hg, inner, hinner, htext⟩⟩
      · rintro ⟨text, hgiven | ⟨g, hg, inner, hinner, htext⟩⟩
        · cases hgiven
        · refine ⟨g, hg, ?_⟩
          rw [ih g hg hinner]
          exact LiteralMap.mem_tapes_of_mem_texts htext
  | relabel m how body ih =>
    obtain ⟨inner, hinner, rfl⟩ := literals_relabel_eq_ok.mp h
    rw [tapesWith_relabel, ih hinner, LiteralMap.tapes_rename]
  | null m => cases h
  | embed m symbol => cases h
  | table m scoping entries ih => cases h

/-- Annotation takes out renames of tapes without a text, so it loses none. -/
theorem literals_annotate (known : Inference) (h : g.literals = .ok found) :
    (g.annotate known).literals = .ok found := by
  induction g generalizing found with
  | epsilon m => exact h
  | literal m tape text => exact h
  | combine m how parts ih =>
    cases how with
    | alternation => cases h
    | sequence =>
      rw [annotate_eq, mapChildren, ← h]
      refine literalsOfParts_map fun g hg => ?_
      obtain ⟨inner, hinner⟩ := exists_literals_of_mem h hg
      rw [ih g hg hinner, hinner]
  | relabel m how body ih =>
    obtain ⟨inner, hinner, rfl⟩ := literals_relabel_eq_ok.mp h
    rw [annotate_eq, mapChildren, annotateNode]
    split
    · next hidle =>
      cases how with
      | rename source target =>
        rw [isIdleRename, decide_eq_true_eq, knownTapes_annotate, tapes_literals _ (ih hinner)] at hidle
        rw [ih hinner]
        exact congrArg Except.ok (LiteralMap.rename_of_notMem_tapes hidle).symm
      | single tape => cases hidle
    · exact literals_relabel_eq_ok.mpr ⟨inner, ih hinner, rfl⟩
  | null m => cases h
  | embed m symbol => cases h
  | table m scoping entries ih => cases h

/-- A grammar that spells its texts out has no collection, so annotation comes to an end. -/
theorem result_annotate (known : Inference) (h : g.literals = .ok found) :
    (known.annotate g).result = .ok (g.annotate known) := by
  have hflat : g.hasNested = false := by
    rw [hasNested_eq_false_iff]
    intro n hn
    have hshown := hidesTexts_of_mem_nodes h hn
    cases n <;> first | rfl | cases hshown
  have hclear : Incident.collection ∉ g.incidents known := by simp [collection_mem_incidents, hflat]
  unfold Inference.annotate
  split
  · cases h
  · exact Incident.outcome_eq_ok_iff.mpr ⟨hclear, rfl⟩

/-- Literals can be read off a grammar exactly if no node of it hides its texts, and otherwise the fault names the
first that does. What is read off are the texts of its leaves, in order and once each, on the tapes that the
relabellings around them lead to, and no tape without a text. These tapes are those that the grammar is annotated with,
from whatever is settled before; the annotated grammar may have lost renames, but no literal. -/
theorem literals_leaves (g : Grammar) :
    (∀ fault, g.literals = .error fault ↔
      ∃ n, g.nodes.find? hidesTexts = some n ∧ fault = .unsupportedNode "extract-literals" n.tag) ∧
    (g.nodes.find? hidesTexts = none → ∃ found, g.literals = .ok found ∧
      (∀ tape text, text ∈ found.texts tape ↔
        ∃ around source, g.Spells around source text ∧ Relabelling.applyAll around source = tape) ∧
      (∀ tape, (found.texts tape).Pairwise (· < ·)) ∧
      (∀ tape ∈ found.tapes, found.texts tape ≠ []) ∧
      ∀ known : Inference, ∃ made, (known.annotate g).result = .ok made ∧
        made.tapes = some found.tapes ∧ made.literals = .ok found) := by
  refine ⟨fun fault => ?_, fun hnone => ?_⟩
  · rw [literals_eq_error_iff, refusal?, Option.map_eq_some_iff]
    exact exists_congr fun n => and_congr_right fun _ => eq_comm
  · obtain ⟨found, hfound⟩ := exists_literals (g := g) (by rw [refusal?, hnone]; rfl)
    refine ⟨found, hfound, fun tape text => mem_literals hfound, found.sorted_texts, ?_, ?_⟩
    · intro tape htape
      obtain ⟨text, htext⟩ := occupied_literals hfound tape htape
      exact List.ne_nil_of_mem htext
    · intro known
      have hmade := literals_annotate known hfound
      refine ⟨_, result_annotate known hfound, ?_, hmade⟩
      rw [tapes_annotate, tapes_literals _ hmade]

/-- Two tapes come to have one name, and a text that stood on both stands there once. -/
example :
    let inner := combine {} .sequence
      [literal {} "a" "x", literal {} "b" "x", relabel {} (.single "a") (literal {} anonymousTape "w")]
    ((relabel {} (.rename "a" "b") inner).literals.toOption.map fun found => (found.tapes.toList, found.texts "b")) =
      some (["b"], ["w", "x"]) := by
  decide +kernel

end Grammar

end SheetGrammar
