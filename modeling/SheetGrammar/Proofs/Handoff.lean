import SheetGrammar.Grammar.Stages
import SheetGrammar.Proofs.RecursionReports

/-!
What resolution hands on. Whatever collection or table it is given, if it succeeds then its result is one flat table
with no collection anywhere, tapes on every node, no embed that refers to nothing and no symbol that embeds itself,
through others or not (`Resolved`). Nothing is asked of the table that goes in: its names may repeat, its embeds may be
unknown or circular.
-/

namespace SheetGrammar

namespace Inference

variable {m : Mark} {symbols : SymbolTable Grammar} {run : Inferred Grammar}

/-- An annotated table has no collection in it. -/
theorem Annotates.flat (ha : Annotates m symbols run) :
    ∀ entry ∈ run.known.annotatedEntries symbols, entry.2.hasNested = false := by
  intro entry he
  obtain ⟨original, ho, rfl⟩ := List.mem_map.mp he
  exact hasNested_annotateEntry (ha.clear original ho)

/-- Every embed in an annotated table is of one of its symbols. -/
theorem Annotates.closed (ha : Annotates m symbols run) {entry : String × Grammar}
    (he : entry ∈ run.known.annotatedEntries symbols) {m' : Mark} {symbol : String}
    (h : Grammar.embed m' symbol ∈ entry.2.nodes) : (run.known.annotatedEntries symbols).contains symbol = true := by
  obtain ⟨original, ho, rfl⟩ := List.mem_map.mp he
  obtain ⟨-, hc, -⟩ := ha.settles.repairs_annotateEntry.embeds original ho m' symbol h
  rw [annotatedEntries, SymbolTable.contains_redefine]
  exact hc

/-- The symbols of an annotated table do not embed each other in a circle. -/
theorem Annotates.acyclic (ha : Annotates m symbols run) (key : String) :
    ¬ Relation.TransGen (run.known.annotatedEntries symbols).Embeds key key := by
  obtain ⟨rank, hd⟩ := ha.settles.descends_redefine ha.settles.repairs_annotateEntry
  exact hd.acyclic key

end Inference

namespace Grammar

/-- Resolution is defaults, names and tapes, and only tapes can fail. -/
theorem resolution_fst (g : Grammar) (log : Log) :
    (resolution g log).1 = g.assignDefaults.qualifyNames.1.inferTapes.1 := rfl

/-- A collection or a table comes out of name qualification as a flat table. -/
theorem qualifyNames_assignDefaults_table (m : Mark) (scoping : Scoping) (entries : List (String × Grammar)) :
    ∃ symbols, (table m scoping entries).assignDefaults.qualifyNames.1 = table (.ofPos m.pos) .flat symbols := by
  cases scoping with
  | nested => exact ⟨_, rfl⟩
  | flat => exact ⟨_, rfl⟩

structure Resolved (g : Grammar) (symbols : SymbolTable Grammar) : Prop where
  table : ∃ m, g = .table m .flat symbols
  flat : ∀ n ∈ g.nodes, n.isNestedTable = false
  annotated : ∀ n ∈ g.nodes, n.tapes.isSome = true
  closed : ∀ m symbol, embed m symbol ∈ g.nodes → symbols.contains symbol = true
  acyclic : ∀ key, ¬ Relation.TransGen symbols.Embeds key key

/-- Every result of resolution is fit to be handed on. -/
theorem resolved_of_resolution (m : Mark) (scoping : Scoping) (entries : List (String × Grammar)) (log : Log)
    (g : Grammar) (ok : (resolution (.table m scoping entries) log).1 = .ok g) : ∃ symbols, g.Resolved symbols := by
  obtain ⟨symbols, hq⟩ := qualifyNames_assignDefaults_table m scoping entries
  rw [resolution_fst, hq] at ok
  have ha := Inference.annotate_table ok
  have hg : Except.ok g = _ := ok.symm.trans ha.result
  cases hg
  refine ⟨_, ⟨_, rfl⟩, ?_, ?_, ?_, ha.acyclic⟩
  · intro n hn
    exact isNestedTable_of_mem_nodes_flat ha.flat hn
  · intro n hn
    rw [Inference.tapes_of_mem_nodes_annotatedEntries hn]
    rfl
  · intro m' symbol hn
    rcases mem_nodes_table.mp hn with h | ⟨entry, he, hn⟩
    · cases h
    · exact ha.closed he hn

/-- With a collection in a collection, an embed of a collection, one of nothing, and two symbols that embed each
other. -/
theorem resolved_of_resolution_nested :
    let entries : List (String × Grammar) :=
      [("Verbs", .table {} .nested
        [("root", .literal {} "text" "run"), ("a", .embed {} "b"), ("B", .embed {} "verbs.A")]),
        ("some", .embed {} "VERBS"), ("odd", .embed {} "nowhere")]
    ∃ g, (resolution (.table {} .nested entries) {}).1 = .ok g ∧ ∃ symbols, g.Resolved symbols := by
  intro entries
  have hok : (resolution (.table {} .nested entries) {}).1.isOk = true := by decide +kernel
  cases hg : (resolution (.table {} .nested entries) {}).1 with
  | error fault =>
    rw [hg] at hok
    cases hok
  | ok g => exact ⟨g, rfl, resolved_of_resolution {} .nested entries {} g hg⟩

end Grammar

end SheetGrammar
