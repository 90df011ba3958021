import Mathlib.Data.List.Nodup
import SheetGrammar.Proofs.Annotation

/-!
What tape inference reports about recursion, and what it gives for a flat table.

- `settleTable_recursiveSymbols`: the symbols reported are the recursive ones, in the order in which they were found
  and under the names that the table has for them, each once.
- `annotate_table`: the annotated table, when there is no fault. `annotate_table_ok`: there is none without collections.
-/

namespace SheetGrammar

namespace SymbolTable

variable {α : Type} {symbols : SymbolTable α}

theorem key_spelling {key : String} (h : symbols.contains key = true) :
    Symbol.key (symbols.spelling key) = Symbol.key key := by
  obtain ⟨entry, he⟩ := Option.isSome_iff_exists.mp h
  rw [spelling, he]
  obtain ⟨-, hk⟩ := mem_of_entry? he
  exact hk

theorem spelling_of_mem (hw : symbols.WellFormed) {entry : String × α} (h : entry ∈ symbols) :
    symbols.spelling (Symbol.key entry.1) = entry.1 := by
  rw [spelling, entry?_key, entry?_of_mem hw h rfl]

end SymbolTable

namespace Message

def recursiveSymbol? (message : Message) : Option String :=
  match message.finding with
  | .recursiveEmbed symbol _ => some symbol
  | _ => none

def recursiveSymbols (messages : List Message) : List String := messages.filterMap recursiveSymbol?

@[simp] theorem recursiveSymbols_append (first second : List Message) :
    recursiveSymbols (first ++ second) = recursiveSymbols first ++ recursiveSymbols second :=
  List.filterMap_append

end Message

/-! ## Reports of the walk -/

namespace Walk

variable {symbols : SymbolTable Grammar} {walk next : Walk}

theorem recursiveSymbols_closeCycle (symbols : SymbolTable Grammar) (key : String) (known : Inference) :
    Message.recursiveSymbols (known.closeCycle symbols key).2 = (known.fresh key).map symbols.spelling := by
  rw [Inference.closeCycle_eq, Message.recursiveSymbols, List.filterMap_map]
  exact congrFun List.filterMap_eq_map _

/-- A move reports the symbols that it finds to be recursive. -/
theorem Moves.reports (h : walk.Moves symbols next) :
    ∃ (fresh : List String) (messages : List Message), next.messages = walk.messages ++ messages ∧
      Message.recursiveSymbols messages = fresh.map symbols.spelling ∧
      next.known.recursive = fresh.reverse ++ walk.known.recursive := by
  cases h with
  | pass _ => exact ⟨[], [], (List.append_nil _).symm, rfl, rfl⟩
  | @close known key target pending outer messages _ _ =>
    exact ⟨known.fresh target, _, rfl, recursiveSymbols_closeCycle symbols target known, by
      rw [Inference.closeCycle_eq]⟩
  | enter _ _ _ => exact ⟨[], [], (List.append_nil _).symm, rfl, by simp⟩
  | settle _ _ => exact ⟨[], [], (List.append_nil _).symm, rfl, rfl⟩

theorem Moves.nodup_recursive (ha : walk.Aligned symbols) (h : walk.Moves symbols next)
    (hn : walk.known.recursive.Nodup) : next.known.recursive.Nodup := by
  cases h with
  | pass _ => exact hn
  | @close known key target pending outer messages _ _ =>
    have hprogress : known.inProgress.Nodup := by
      rw [ha.inProgress]
      exact List.nodup_reverse.mpr ha.nodup
    have hfresh : (known.fresh target).Nodup := (hprogress.sublist (List.dropWhile_suffix _).sublist).filter _
    rw [Inference.closeCycle_eq]
    refine List.nodup_append.mpr ⟨List.nodup_reverse.mpr hfresh, hn, fun a ha b hb hab => ?_⟩
    have hnew : a ∉ known.recursive := by simpa using (List.mem_filter.mp (List.mem_reverse.mp ha)).2
    exact hnew (hab ▸ hb)
  | enter _ _ _ => simpa using hn
  | settle _ _ => exact hn

end Walk

namespace Progress

variable {symbols : SymbolTable Grammar} {p : Progress}

theorem Reached.recursiveSymbols (h : Reached symbols p) :
    Message.recursiveSymbols (p.reported ++ p.walk.messages) = p.walk.known.recursive.reverse.map symbols.spelling := by
  induction h with
  | refl => rfl
  | @tail p q _ hm ih =>
    cases hm with
    | walk hw =>
      obtain ⟨fresh, messages, hmessages, hnew, hrec⟩ := hw.reports
      show Message.recursiveSymbols (_ ++ _) = _
      rw [hmessages, ← List.append_assoc, Message.recursiveSymbols_append, ih, hnew, hrec]
      simp
    | start _ _ => simpa [Walk.begun] using ih
    | skip _ => exact ih

theorem Reached.nodup_recursive (h : Reached symbols p) : p.walk.known.recursive.Nodup := by
  induction h with
  | refl => exact List.nodup_nil
  | @tail p q hp hm ih =>
    cases hm with
    | walk hw => exact hw.nodup_recursive (Reached.aligned hp) ih
    | start _ _ => simpa [Walk.begun] using ih
    | skip _ => exact ih

end Progress

/-! ## Reports of annotation -/

/-- Repairs are not reported as recursion. -/
theorem Grammar.recursiveSymbol?_of_repair_mem {known : Inference} {g : Grammar} {message : Message}
    (h : Incident.repair message ∈ g.incidents known) : message.recursiveSymbol? = none := by
  obtain ⟨n, -, hn⟩ := mem_incidents_iff.mp h
  obtain ⟨m, symbol, -, -, rfl⟩ | ⟨m, how, body, -, -, rfl⟩ := repair_mem_nodeIncidents.mp hn
  · rfl
  · rfl

namespace Inference

variable {symbols : SymbolTable Grammar} {m : Mark}

theorem settleTable_recursiveSymbols (h : (settleTable symbols {}).result = .ok ()) :
    Message.recursiveSymbols (settleTable symbols {}).messages =
        (settleTable symbols {}).known.recursive.reverse.map symbols.spelling ∧
      (settleTable symbols {}).known.recursive.Nodup := by
  obtain ⟨reported, messages, hr, he⟩ := settleTable_reached h
  rw [← he]
  exact ⟨hr.recursiveSymbols, hr.nodup_recursive⟩

theorem recursiveSymbols_reported (known : Inference) (symbols : SymbolTable Grammar) :
    Message.recursiveSymbols (Grammar.Incident.reported (symbols.flatMap known.entryIncidents)) = [] := by
  rw [Message.recursiveSymbols, List.filterMap_eq_nil_iff]
  intro message hm
  obtain ⟨entry, -, hmem⟩ := List.mem_flatMap.mp (Grammar.Incident.repair_mem_of_mem_reported hm)
  exact Grammar.recursiveSymbol?_of_repair_mem (mem_entryIncidents.mp hmem).2

def annotatedEntries (known : Inference) (symbols : SymbolTable Grammar) : SymbolTable Grammar :=
  symbols.redefine fun entry => (known.annotateEntry entry).2

/-- Every node of an annotated table is annotated with the tapes that it has, the table itself included. -/
theorem tapes_of_mem_nodes_annotatedEntries {known : Inference} {pos : Option Position} {n : Grammar}
    (h : n ∈ (Grammar.table ⟨pos, some (Grammar.unionOf ((known.annotatedEntries symbols).map (·.2)))⟩ .flat
      (known.annotatedEntries symbols)).nodes) : n.tapes = some (n.tapesWith known.tapesOf) := by
  rcases Grammar.mem_nodes_table.mp h with rfl | ⟨entry, he, hn⟩
  · refine congrArg some ((Grammar.unionOf_eq ?_).trans (Grammar.tapesWith_table ..).symm)
    simp only [annotatedEntries, SymbolTable.redefine, List.map_map]
    exact List.forall_mem_map.mpr fun entry _ => tapes_of_mem_nodes_annotateEntry (Grammar.self_mem_nodes _)
  · obtain ⟨original, -, rfl⟩ := List.mem_map.mp he
    exact tapes_of_mem_nodes_annotateEntry hn

/-- What the annotation of a flat table gives if it meets no collection. -/
structure Annotates (m : Mark) (symbols : SymbolTable Grammar) (run : Inferred Grammar) : Prop where
  result : run.result = .ok
    (.table ⟨m.pos, some (Grammar.unionOf ((run.known.annotatedEntries symbols).map (·.2)))⟩ .flat
      (run.known.annotatedEntries symbols))
  settles : run.known.Settles symbols
  reached : ∃ reported messages, Progress.Reached symbols ⟨[], reported, ⟨run.known, [], messages⟩⟩
  clear : ∀ entry ∈ symbols, Grammar.Incident.collection ∉ run.known.entryIncidents entry
  reports : Message.recursiveSymbols run.messages = run.known.recursive.reverse.map symbols.spelling
  nodup : run.known.recursive.Nodup

theorem annotate_table {g : Grammar} (h : (annotate {} (.table m .flat symbols)).result = .ok g) :
    Annotates m symbols (annotate {} (.table m .flat symbols)) := by
  unfold annotate at h ⊢
  cases hset : (settleTable symbols {}).result with
  | error fault => simp [hset] at h
  | ok done =>
    simp only [hset] at h ⊢
    obtain ⟨hclear, -⟩ := Grammar.Incident.outcome_eq_ok_iff.mp h
    obtain ⟨hreports, hnodup⟩ := settleTable_recursiveSymbols hset
    obtain ⟨reported, messages, hreached, -⟩ := settleTable_reached hset
    refine ⟨Grammar.Incident.outcome_eq_ok_iff.mpr ⟨hclear, rfl⟩, settleTable_settles hset,
      ⟨reported, messages, hreached⟩, ?_, ?_, hnodup⟩
    · intro entry he hmem
      exact hclear (List.mem_flatMap.mpr ⟨entry, he, hmem⟩)
    · rw [Message.recursiveSymbols_append, recursiveSymbols_reported, hreports, List.append_nil]

theorem annotate_table_ok (hflat : ∀ entry ∈ symbols, entry.2.hasNested = false) :
    ∃ g, (annotate {} (.table m .flat symbols)).result = .ok g := by
  unfold annotate
  simp only [settleTable_ok hflat]
  refine ⟨_, Grammar.Incident.outcome_eq_ok_iff.mpr ⟨fun hmem => ?_, rfl⟩⟩
  obtain ⟨entry, he, hmem⟩ := List.mem_flatMap.mp hmem
  have hnested := Grammar.collection_mem_incidents.mp (mem_entryIncidents.mp hmem).2
  rw [hflat entry he] at hnested
  cases hnested

/-! ## Who is reported -/

variable {run : Inferred Grammar}

/-- The name under which a recursive symbol is reported has its key. -/
theorem Annotates.key_spelling (ha : Annotates m symbols run) {key : String} (h : key ∈ run.known.recursive) :
    Symbol.key (symbols.spelling key) = key := by
  have hkey : Symbol.key key = key := ha.settles.canonical key h
  have hc := (ha.settles.recursive key (hkey.symm ▸ h)).1
  rw [SymbolTable.key_spelling hc, hkey]

/-- A symbol is reported exactly if it was found to be recursive. -/
theorem Annotates.mem_recursiveSymbols_iff (ha : Annotates m symbols run) (distinct : symbols.WellFormed)
    {entry : String × Grammar} (he : entry ∈ symbols) :
    entry.1 ∈ Message.recursiveSymbols run.messages ↔ Symbol.key entry.1 ∈ run.known.recursive := by
  rw [ha.reports, List.mem_map]
  constructor
  · rintro ⟨key, hk, hname⟩
    rw [List.mem_reverse] at hk
    rw [← hname, ha.key_spelling hk]
    exact hk
  · intro h
    exact ⟨Symbol.key entry.1, List.mem_reverse.mpr h, SymbolTable.spelling_of_mem distinct he⟩

/-- No symbol is reported twice. -/
theorem Annotates.nodup_recursiveSymbols (ha : Annotates m symbols run) :
    (Message.recursiveSymbols run.messages).Nodup := by
  rw [ha.reports]
  refine List.Nodup.map_on ?_ (List.nodup_reverse.mpr ha.nodup)
  intro x hx y hy h
  rw [← ha.key_spelling (List.mem_reverse.mp hx), ← ha.key_spelling (List.mem_reverse.mp hy), h]

theorem Annotates.count_recursiveSymbols (ha : Annotates m symbols run) (distinct : symbols.WellFormed)
    {entry : String × Grammar} (he : entry ∈ symbols) :
    (Message.recursiveSymbols run.messages).count entry.1 =
      if Symbol.key entry.1 ∈ run.known.recursive then 1 else 0 := by
  have hiff := ha.mem_recursiveSymbols_iff distinct he
  by_cases hr : Symbol.key entry.1 ∈ run.known.recursive
  · rw [if_pos hr]
    exact List.count_eq_one_of_mem ha.nodup_recursiveSymbols (hiff.mpr hr)
  · rw [if_neg hr]
    exact List.count_eq_zero_of_not_mem (mt hiff.mp hr)

end Inference

end SheetGrammar
