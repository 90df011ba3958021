import SheetGrammar.Proofs.NameRewriting
import SheetGrammar.Proofs.RecursionReports

/-!
Tape sets are exact. What inference finds for a symbol by settling the symbols of a table one after the other, and what
it annotates every node with, is what the leaf walk finds with no settling at all: in the table that is left when the
symbols reported as recursive and the embeds of unknown symbols are made null, and in the annotated table itself.
-/

namespace SheetGrammar

namespace SymbolTable

/-- The definition of an entry without the embeds of symbols that the table does not have, and null if it is in
`cut`. -/
def bodyWithout (symbols : SymbolTable Grammar) (cut : List String) (entry : String × Grammar) : Grammar :=
  if entry.1 ∈ cut then .null (.ofPos entry.2.pos)
  else entry.2.resolve fun symbol => if symbols.contains symbol then some symbol else none

def without (symbols : SymbolTable Grammar) (cut : List String) : SymbolTable Grammar :=
  symbols.redefine (symbols.bodyWithout cut)

end SymbolTable

namespace Inference

variable {m : Mark} {symbols : SymbolTable Grammar} {run : Inferred Grammar}

/-- Taking out what is reported is a repair. -/
theorem Annotates.repairs_without (ha : Annotates m symbols run) (distinct : symbols.WellFormed) :
    Repairs symbols run.known (symbols.bodyWithout (Message.recursiveSymbols run.messages)) := by
  constructor
  · intro entry he
    have hiff := ha.mem_recursiveSymbols_iff distinct he
    unfold SymbolTable.bodyWithout
    by_cases hr : Symbol.key entry.1 ∈ run.known.recursive
    · rw [if_pos hr, if_pos (hiff.mpr hr)]
      rfl
    · rw [if_neg hr, if_neg (mt hiff.mp hr), Grammar.tapesWith_resolve]
      refine Grammar.tapesWith_congr fun m symbol _ => ?_
      by_cases hc : symbols.contains symbol = true
      · simp [hc]
      · rw [if_neg hc, ha.settles.tapesOf_of_unknown (by simpa using hc)]
        rfl
  · intro entry he m symbol hn
    have hiff := ha.mem_recursiveSymbols_iff distinct he
    unfold SymbolTable.bodyWithout at hn
    by_cases hr : Symbol.key entry.1 ∈ run.known.recursive
    · rw [if_pos (hiff.mpr hr)] at hn
      cases List.mem_singleton.mp hn
    · rw [if_neg (mt hiff.mp hr)] at hn
      obtain ⟨m', symbol', hmem, hrefer⟩ := Grammar.embed_mem_nodes_resolve hn
      by_cases hc : symbols.contains symbol' = true
      · rw [if_pos hc] at hrefer
        cases hrefer
        exact ⟨hr, hc, m', hmem⟩
      · rw [if_neg hc] at hrefer
        cases hrefer

/-- What is known of a symbol is annotated on its definition, and is what the leaf walk finds without the symbols
reported. -/
theorem Annotates.tapes_of_mem (ha : Annotates m symbols run) (distinct : symbols.WellFormed) {entry : String × Grammar}
    (he : entry ∈ symbols) :
    ∃ body tapes, (run.known.annotatedEntries symbols).get? entry.1 = some body ∧ body.tapes = some tapes ∧
      run.known.tapes? entry.1 = some tapes ∧
      ∀ tape, tape ∈ tapes ↔ (symbols.bodyWithout (Message.recursiveSymbols run.messages) entry).Writes
        (symbols.without (Message.recursiveSymbols run.messages)) tape := by
  have hcut := ha.repairs_without distinct
  have hout := ha.settles.repairs_annotateEntry
  have hbody := SymbolTable.get?_redefine_of_mem distinct (fun entry => (run.known.annotateEntry entry).2) he
  have hget :=
    SymbolTable.get?_redefine_of_mem distinct (symbols.bodyWithout (Message.recursiveSymbols run.messages)) he
  have hsome : (run.known.tapes? entry.1).isSome = true := by
    rw [ha.settles.isSome_tapes?]
    exact SymbolTable.contains_of_mem he
  obtain ⟨tapes, ht⟩ := Option.isSome_iff_exists.mp hsome
  have htapes := Grammar.tapesOf_of_tapes? ht
  refine ⟨_, tapes, hbody, ?_, ht, ?_⟩
  · rw [tapes_of_mem_nodes_annotateEntry (Grammar.self_mem_nodes _), ← ha.settles.tapesOf_eq hout hbody, htapes]
  · intro tape
    rw [← htapes, ha.settles.tapesOf_eq hcut hget]
    exact ha.settles.mem_tapesWith_iff hcut

theorem mem_unionOf_annotatedEntries {known : Inference} {tape : String} :
    tape ∈ Grammar.unionOf ((known.annotatedEntries symbols).map (·.2)) ↔
      ∃ entry ∈ known.annotatedEntries symbols, ∃ tapes, entry.2.tapes = some tapes ∧ tape ∈ tapes := by
  rw [Grammar.unionOf, List.map_map, TapeSet.mem_unionAll_map]
  constructor
  · rintro ⟨entry, he, hx⟩
    obtain ⟨original, -, rfl⟩ := List.mem_map.mp he
    have ht := tapes_of_mem_nodes_annotateEntry (Grammar.self_mem_nodes (known.annotateEntry original).2)
    exact ⟨_, he, _, ht, Grammar.knownTapes_of_tapes ht ▸ hx⟩
  · rintro ⟨entry, he, tapes, ht, hx⟩
    refine ⟨entry, he, ?_⟩
    rwa [Function.comp_apply, Grammar.knownTapes_of_tapes ht]

end Inference

/-- The tape sets that a run of inference on a flat table gives are those of the leaf walk. `all` are the tapes of the
whole table and `entries` its annotated entries. -/
structure Inferred.Exact (m : Mark) (symbols : SymbolTable Grammar) (run : Inferred Grammar) (all : TapeSet)
    (entries : SymbolTable Grammar) : Prop where
  result : run.result = .ok (.table ⟨m.pos, some all⟩ .flat entries)
  names : entries.names = symbols.names
  /-- Without the symbols reported, nothing embeds itself. -/
  acyclic : ∀ key, ¬ Relation.TransGen (symbols.without (Message.recursiveSymbols run.messages)).Embeds key key
  /-- What is known of a symbol, and annotated on its definition, is what its definition writes on without those
  reported. -/
  symbol : ∀ name g, (name, g) ∈ symbols.without (Message.recursiveSymbols run.messages) →
    ∃ body tapes, entries.get? name = some body ∧ body.tapes = some tapes ∧ run.known.tapes? name = some tapes ∧
      ∀ tape, tape ∈ tapes ↔ g.Writes (symbols.without (Message.recursiveSymbols run.messages)) tape
  /-- Every node is annotated with what it writes on in the annotated table. -/
  node : ∀ n ∈ (Grammar.table ⟨m.pos, some all⟩ .flat entries).nodes,
    ∃ tapes, n.tapes = some tapes ∧ ∀ tape, tape ∈ tapes ↔ n.Writes entries tape
  union : ∀ tape, tape ∈ all ↔ ∃ entry ∈ entries, ∃ tapes, entry.2.tapes = some tapes ∧ tape ∈ tapes

namespace Inference

/-- Inference on a table without collections succeeds, and its tape sets are exact. -/
theorem annotate_table_exact (m : Mark) (symbols : SymbolTable Grammar) (distinct : symbols.WellFormed)
    (flat : ∀ entry ∈ symbols, ∀ n ∈ entry.2.nodes, n.isNestedTable = false) :
    ∃ all entries, (annotate {} (.table m .flat symbols)).Exact m symbols all entries := by
  have hflat : ∀ entry ∈ symbols, entry.2.hasNested = false := by
    intro entry he
    exact Grammar.hasNested_eq_false_iff.mpr (flat entry he)
  obtain ⟨g, hg⟩ := annotate_table_ok (m := m) hflat
  have ha := annotate_table hg
  obtain ⟨rank, hd⟩ := ha.settles.descends_redefine (ha.repairs_without distinct)
  refine ⟨_, _, ha.result, symbols.names_redefine _, hd.acyclic, ?_, ?_, ?_⟩
  · intro name g hmem
    obtain ⟨entry, he, heq⟩ := List.mem_map.mp hmem
    cases heq
    exact ha.tapes_of_mem distinct he
  · intro n hn
    refine ⟨_, tapes_of_mem_nodes_annotatedEntries hn, ?_⟩
    intro tape
    exact ha.settles.mem_tapesWith_iff ha.settles.repairs_annotateEntry
  · intro tape
    exact mem_unionOf_annotatedEntries

/-- With a rename, an unknown symbol, a symbol that embeds itself and one that embeds that. -/
theorem annotate_table_exact_self_loop :
    let symbols : SymbolTable Grammar :=
      [("Verb", .combine {} .sequence [.embed {} "STEM", .embed {} "nowhere"]),
        ("stem", .relabel {} (.rename "text" "root") (.literal {} "text" "run")),
        ("Loop", .combine {} .alternation [.embed {} "loop", .embed {} "verb"]),
        ("outer", .combine {} .sequence [.embed {} "LOOP", .literal {} "gloss" "x"])]
    symbols.WellFormed ∧ (∀ entry ∈ symbols, ∀ n ∈ entry.2.nodes, n.isNestedTable = false) ∧
      Message.recursiveSymbols (annotate {} (.table {} .flat symbols)).messages = ["Loop"] ∧
      ∃ all entries, (annotate {} (.table {} .flat symbols)).Exact {} symbols all entries := by
  intro symbols
  have distinct : symbols.WellFormed := by decide +kernel
  have flat : ∀ entry ∈ symbols, ∀ n ∈ entry.2.nodes, n.isNestedTable = false := by decide +kernel
  exact ⟨distinct, flat, by decide +kernel, annotate_table_exact {} symbols distinct flat⟩

end Inference

end SheetGrammar
