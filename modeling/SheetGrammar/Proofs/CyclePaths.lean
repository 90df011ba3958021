import Mathlib.Data.List.Chain
import SheetGrammar.Proofs.CycleReports

/-!
What a report of recursion says is so. The path in it is read off the list of symbols in progress, which all visits
share; it is a way around in the table because that list is in line with the visits (`Walk.Aligned`) and each visit is
embedded by the one around it (`Walk.Linked`), whatever cycles were closed and whatever walks were made before.

- `SymbolTable.Cycle`: keys of symbols, none twice, each of a symbol that embeds the next and the last of one that
  embeds the first. `SymbolTable.ClosedWalk` is the same of entries, whose names the path in a report has
  (`pathText`).
- `Walk.Aligned.cycle_members`: the symbols in progress from a target of the innermost one on are a way from the target
  around to it.
- `Progress.Reached.cycle_of_mem_messages`: so every message of the walk is about a symbol on the way around that it
  tells.
- `Inference.recursion_reports_sound`: no symbol is reported twice, and every symbol reported embeds itself along the
  path reported.
-/

namespace SheetGrammar

open Relation

namespace SymbolTable

variable {symbols : SymbolTable Grammar}

structure Cycle (symbols : SymbolTable Grammar) (first : String) (rest : List String) : Prop where
  contained : ∀ key ∈ first :: rest, symbols.contains key = true
  canonical : ∀ key ∈ first :: rest, Symbol.key key = key
  nodup : (first :: rest).Nodup
  linked : (first :: (rest ++ [first])).IsChain symbols.Embeds

structure ClosedWalk (symbols : SymbolTable Grammar) (first : String × Grammar) (rest : List (String × Grammar)) :
    Prop where
  mem : ∀ entry ∈ first :: rest, entry ∈ symbols
  distinct : ((first :: rest).map fun entry => Symbol.key entry.1).Nodup
  linked : (first :: (rest ++ [first])).IsChain fun entry next =>
    symbols.Embeds (Symbol.key entry.1) (Symbol.key next.1)

def pathText (first : String × Grammar) (rest : List (String × Grammar)) : String :=
  String.intercalate " -> " ((first :: (rest ++ [first])).map (·.1))

/-- Keys of symbols are keys of entries. -/
theorem exists_entries {keys : List String} (hcontained : ∀ key ∈ keys, symbols.contains key = true)
    (hcanonical : ∀ key ∈ keys, Symbol.key key = key) :
    ∃ entries : List (String × Grammar),
      (∀ entry ∈ entries, entry ∈ symbols) ∧ (entries.map fun entry => Symbol.key entry.1) = keys := by
  induction keys with
  | nil => exact ⟨[], by simp, rfl⟩
  | cons key keys ih =>
    obtain ⟨hkey, hkeys⟩ := List.forall_mem_cons.mp hcontained
    obtain ⟨hcanon, hcanons⟩ := List.forall_mem_cons.mp hcanonical
    obtain ⟨entries, hmem, hmap⟩ := ih hkeys hcanons
    obtain ⟨entry, he, hk⟩ := contains_iff.mp hkey
    exact ⟨entry :: entries, List.forall_mem_cons.mpr ⟨he, hmem⟩, by rw [List.map_cons, hmap, hk, hcanon]⟩

/-- The way around in a table, entry by entry. -/
theorem Cycle.exists_closedWalk {first : String} {rest : List String} (h : symbols.Cycle first rest) :
    ∃ entry entries, symbols.ClosedWalk entry entries ∧ Symbol.key entry.1 = first ∧
      (entries.map fun entry => Symbol.key entry.1) = rest := by
  obtain ⟨walk, hmem, hmap⟩ := exists_entries h.contained h.canonical
  cases walk with
  | nil => cases hmap
  | cons entry entries =>
    obtain ⟨rfl, rfl⟩ := List.cons.inj hmap
    refine ⟨entry, entries, ⟨hmem, h.nodup, ?_⟩, rfl, rfl⟩
    refine List.isChain_of_isChain_map (fun entry : String × Grammar => Symbol.key entry.1)
      (fun _ _ hembeds => hembeds) ?_
    simpa using h.linked

end SymbolTable

/-! ## Cycles that the walk closes -/

theorem Walk.Aligned.cycle_members {symbols : SymbolTable Grammar} {walk : Walk} {v : Visit} {outer : List Visit}
    {target : String} (ha : walk.Aligned symbols) (hl : walk.Linked symbols)
    (hflat : ∀ entry ∈ symbols, entry.2.hasNested = false) (hv : walk.visits = v :: outer)
    (htarget : target ∈ symbols.targets v.key) (hp : target ∈ walk.known.inProgress) :
    ∃ rest, walk.known.members target = target :: rest ∧ symbols.Cycle target rest := by
  obtain ⟨inside, outside, hkeys⟩ := ha.exists_inner hp
  have hsub : ∀ key ∈ target :: inside.reverse, key ∈ walk.keys := by
    intro key hkey
    rw [hkeys]
    rcases List.mem_cons.mp hkey with rfl | hkey
    · simp
    · exact List.mem_append_left _ (List.mem_reverse.mp hkey)
  have hnodup : (inside ++ [target]).Nodup := by
    have hall := ha.nodup
    rw [hkeys, List.append_cons] at hall
    exact hall.of_append_left
  have hlinked : (inside ++ [target]).IsChain fun inside outside => symbols.Embeds outside inside := by
    have hall := hl
    rw [Linked, hkeys, List.append_cons] at hall
    exact hall.left_of_append
  -- the innermost symbol comes first among the visits, and embeds the target
  have hhead : (inside ++ [target]).head? = some v.key := by
    have hcons : walk.keys = v.key :: outer.map Visit.key := by rw [keys, hv]; rfl
    rw [hkeys] at hcons
    cases inside with
    | nil => exact congrArg some (List.cons.inj hcons).1
    | cons key inside => exact congrArg some (List.cons.inj hcons).1
  have hclosed : (target :: (inside ++ [target])).IsChain fun inside outside => symbols.Embeds outside inside := by
    refine List.isChain_cons.mpr ⟨?_, hlinked⟩
    intro key hkey
    rw [hhead] at hkey
    cases hkey
    exact (SymbolTable.mem_targets_iff hflat).mp htarget
  refine ⟨inside.reverse, ha.members_eq hkeys, ?_, ?_, ?_, ?_⟩
  · intro key hkey
    exact ha.contained key (hsub key hkey)
  · intro key hkey
    exact ha.canonical key (hsub key hkey)
  · simpa using List.nodup_reverse.mpr hnodup
  · simpa using List.isChain_reverse.mpr hclosed

/-- Every message of the walk is about a symbol on the way around that it tells. -/
theorem Progress.Reached.cycle_of_mem_messages {symbols : SymbolTable Grammar} {p : Progress}
    (hflat : ∀ entry ∈ symbols, entry.2.hasNested = false) (h : Reached symbols p) :
    ∀ message ∈ p.reported ++ p.walk.messages, ∃ first rest, symbols.Cycle first rest ∧ ∃ key ∈ first :: rest,
      message = Inference.recursionMessage symbols (Inference.cyclePath symbols (first :: rest)) key := by
  induction h with
  | refl => exact fun _ hmem => nomatch hmem
  | @tail p q hp hm ih =>
    cases hm with
    | @walk names reported walk next hw =>
      intro message hmem
      cases hw with
      | @close known key target pending outer messages _ hprogress =>
        rw [Inference.closeCycle_eq, ← List.append_assoc] at hmem
        rcases List.mem_append.mp hmem with hmem | hmem
        · exact ih message hmem
        · have ha := Reached.aligned hp
          have htarget := ha.mem_targets List.mem_cons_self List.mem_cons_self
          obtain ⟨rest, hmembers, hcycle⟩ := ha.cycle_members (Reached.linked hflat hp) hflat rfl htarget hprogress
          obtain ⟨fresh, hfresh, rfl⟩ := List.mem_map.mp hmem
          have hmember : fresh ∈ known.members target := List.mem_of_mem_filter hfresh
          rw [show known.members target = target :: rest from hmembers] at hmember ⊢
          exact ⟨target, rest, hcycle, fresh, hmember, rfl⟩
      | _ => exact ih message hmem
    | start _ _ => simpa [Walk.begun] using ih
    | skip _ => exact ih

namespace Inference

variable {m : Mark} {symbols : SymbolTable Grammar}

/-- The messages on a table: those of the walk, then those of annotation. -/
theorem annotate_table_reports (m : Mark) (hflat : ∀ entry ∈ symbols, entry.2.hasNested = false) :
    let run := annotate {} (.table m .flat symbols)
    ∃ reported messages, Progress.Reached symbols ⟨[], reported, ⟨run.known, [], messages⟩⟩ ∧
      run.messages = reported ++ messages ++ Grammar.Incident.reported (symbols.flatMap run.known.entryIncidents) := by
  intro run
  have hok := settleTable_ok hflat {}
  obtain ⟨reported, messages, hreached, hmessages⟩ := settleTable_reached hok
  have hrun : run = annotate {} (.table m .flat symbols) := rfl
  unfold annotate at hrun
  simp only [hok] at hrun
  rw [hrun]
  exact ⟨reported, messages, hreached, by rw [hmessages]⟩

/-- The path of a cycle names the entries along it. -/
theorem cyclePath_eq (distinct : symbols.WellFormed) {first : String × Grammar} {rest : List (String × Grammar)}
    (hwalk : symbols.ClosedWalk first rest) :
    cyclePath symbols (Symbol.key first.1 :: rest.map fun entry => Symbol.key entry.1) =
      SymbolTable.pathText first rest := by
  have hspelling : ∀ entry ∈ first :: (rest ++ [first]), symbols.spelling (Symbol.key entry.1) = entry.1 := by
    intro entry he
    refine SymbolTable.spelling_of_mem distinct (hwalk.mem entry ?_)
    simpa [or_comm] using he
  have hkeys : (Symbol.key first.1 :: rest.map fun entry => Symbol.key entry.1) ++ [Symbol.key first.1] =
      (first :: (rest ++ [first])).map fun entry => Symbol.key entry.1 := by simp
  rw [cyclePath, SymbolTable.pathText, List.take_succ_cons, List.take_zero, hkeys, List.map_map]
  exact congrArg _ (List.map_congr_left hspelling)

/-- A report of recursion is at a symbol on a closed walk, and tells the walk. -/
theorem exists_closedWalk_of_report (hflat : ∀ entry ∈ symbols, entry.2.hasNested = false)
    (distinct : symbols.WellFormed) {message : Message}
    (hmem : message ∈ (annotate {} (.table m .flat symbols)).messages) {symbol cycle : String}
    (hfinding : message.finding = .recursiveEmbed symbol cycle) :
    ∃ first rest, symbols.ClosedWalk first rest ∧ cycle = SymbolTable.pathText first rest ∧
      ∃ entry ∈ first :: rest, entry.1 = symbol ∧ entry.2.pos = message.pos := by
  obtain ⟨reported, messages, hreached, hmessages⟩ := annotate_table_reports m hflat
  rw [hmessages] at hmem
  rcases List.mem_append.mp hmem with hmem | hmem
  · obtain ⟨first, rest, hcycle, key, hkey, rfl⟩ := hreached.cycle_of_mem_messages hflat message hmem
    obtain ⟨entry, entries, hwalk, rfl, rfl⟩ := hcycle.exists_closedWalk
    obtain ⟨member, hmember, rfl⟩ : ∃ member ∈ entry :: entries, Symbol.key member.1 = key := List.mem_map.mp hkey
    have hmem' := hwalk.mem member hmember
    cases hfinding
    have hname : symbols.spelling (Symbol.key member.1) = member.1 := SymbolTable.spelling_of_mem distinct hmem'
    refine ⟨entry, entries, hwalk, cyclePath_eq distinct hwalk, member, hmember, hname.symm, ?_⟩
    rw [recursionMessage, SymbolTable.get?_key, SymbolTable.get?, SymbolTable.entry?_of_mem distinct hmem' rfl]
    rfl
  · obtain ⟨entry, -, hmet⟩ := List.mem_flatMap.mp (Grammar.Incident.repair_mem_of_mem_reported hmem)
    have hnone := Grammar.recursiveSymbol?_of_repair_mem (mem_entryIncidents.mp hmet).2
    rw [Message.recursiveSymbol?, hfinding] at hnone
    cases hnone

end Inference

structure Grammar.TellsCycles (m : Mark) (symbols : SymbolTable Grammar) (run : Except Fault Grammar × List Message) :
    Prop where
  /-- No symbol is reported twice. -/
  once : (Message.recursiveSymbols run.2).Nodup
  /-- The path reported is a closed walk along embeds, through symbols of the table and none of them twice, and the
  symbol reported is one of these. -/
  path : ∀ message ∈ run.2, ∀ symbol cycle, message.finding = .recursiveEmbed symbol cycle →
    ∃ first rest, symbols.ClosedWalk first rest ∧ cycle = SymbolTable.pathText first rest ∧
      ∃ entry ∈ first :: rest, entry.1 = symbol ∧ entry.2.pos = message.pos
  /-- What is made null for it embeds itself. -/
  cut : ∃ (all : TapeSet) (entries : SymbolTable Grammar), run.1 = .ok (.table ⟨m.pos, some all⟩ .flat entries) ∧
    ∀ name g, (name, g) ∈ symbols → name ∈ Message.recursiveSymbols run.2 →
      entries.get? name = some (.null ⟨g.pos, some ∅⟩) ∧ TransGen symbols.Embeds (Symbol.key name) (Symbol.key name)

namespace Inference

variable {m : Mark} {symbols : SymbolTable Grammar}

/-- A symbol that is reported is made null, and embeds itself. -/
theorem Annotates.cut_of_reported {run : Inferred Grammar} (ha : Annotates m symbols run)
    (hflat : ∀ entry ∈ symbols, entry.2.hasNested = false) (distinct : symbols.WellFormed) {name : String} {g : Grammar}
    (hmem : (name, g) ∈ symbols) (hreported : name ∈ Message.recursiveSymbols run.messages) :
    (run.known.annotatedEntries symbols).get? name = some (.null ⟨g.pos, some ∅⟩) ∧
      TransGen symbols.Embeds (Symbol.key name) (Symbol.key name) := by
  have hrecursive := (ha.mem_recursiveSymbols_iff distinct hmem).mp hreported
  obtain ⟨before, -, hiff⟩ := ha.mem_recursive_iff hflat (SymbolTable.contains_of_mem hmem)
  have hbody := SymbolTable.get?_redefine_of_mem distinct (fun entry => (run.known.annotateEntry entry).2) hmem
  rw [annotateEntry_of_recursive hrecursive] at hbody
  exact ⟨hbody, TransGen.mono (fun _ _ h => h.1) _ _ (hiff.mp hrecursive)⟩

/-- Reports of recursion are right: none is made twice, and each tells a way in the table from its symbol around to
itself. -/
theorem recursion_reports_sound (m : Mark) (symbols : SymbolTable Grammar) (distinct : symbols.WellFormed)
    (flat : ∀ entry ∈ symbols, ∀ n ∈ entry.2.nodes, n.isNestedTable = false) :
    Grammar.TellsCycles m symbols (Grammar.table m .flat symbols).inferTapes := by
  have hflat : ∀ entry ∈ symbols, entry.2.hasNested = false := by
    intro entry he
    exact Grammar.hasNested_eq_false_iff.mpr (flat entry he)
  obtain ⟨made, hmade⟩ := annotate_table_ok (m := m) hflat
  have ha := annotate_table hmade
  refine ⟨ha.nodup_recursiveSymbols, ?_, _, _, ha.result, ?_⟩
  · intro message hmem symbol cycle hfinding
    exact exists_closedWalk_of_report hflat distinct hmem hfinding
  · intro name g hmem hreported
    exact ha.cut_of_reported hflat distinct hmem hreported

/-- With a second cycle inside the first, closed when all its symbols are reported already. -/
theorem recursion_reports_sound_inner_cycle :
    let symbols : SymbolTable Grammar :=
      [("Stem", .combine {} .sequence [.embed {} "form", .embed {} "root"]), ("Form", .embed {} "WORD"),
        ("word", .combine {} .alternation [.embed {} "stem", .embed {} "form"]), ("root", .literal {} "text" "run")]
    symbols.WellFormed ∧ (∀ entry ∈ symbols, ∀ n ∈ entry.2.nodes, n.isNestedTable = false) ∧
      (Grammar.table {} .flat symbols).inferTapes.2 =
        ["Stem", "Form", "word"].map (fun name => ⟨.recursiveEmbed name "Stem -> Form -> word -> Stem", none⟩) ∧
      Grammar.TellsCycles {} symbols (Grammar.table {} .flat symbols).inferTapes := by
  intro symbols
  have distinct : symbols.WellFormed := by decide +kernel
  have flat : ∀ entry ∈ symbols, ∀ n ∈ entry.2.nodes, n.isNestedTable = false := by decide +kernel
  exact ⟨distinct, flat, by decide +kernel, recursion_reports_sound {} symbols distinct flat⟩

end Inference

end SheetGrammar
