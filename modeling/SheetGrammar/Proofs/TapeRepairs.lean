import SheetGrammar.Proofs.CyclePaths
import SheetGrammar.Proofs.PlacedReports

/-!
Tape inference changes only what it reports. Apart from the tape sets that it adds, a table comes out as it went in,
except for the nodes named in the messages: the definition of a symbol that embeds itself is null, an embed of an
unknown symbol is null, and a rename of a tape that its body does not have gives way to the body. Repairs stand inside
each other, and whether a rename goes depends on the tapes that its body has once all definitions are repaired;
`Repaired` says it by the leaf walk over the table that is left.

- `Grammar.repaired_annotate`: annotation repairs a definition so, and reports the repairs from the leaves up.
- `Repaired.report_eq_nil_iff`: a definition without a report is as it was, and one with a report is not.
- `inferTapes_changes_reported`: the same of a whole table.
-/

namespace SheetGrammar

namespace Grammar

/-! ## Grammars without tape sets -/

/-- The grammar with its positions, but without tape sets: every embed is left to refer to its own name. -/
def unannotated (g : Grammar) : Grammar := g.resolve some

theorem unannotated_combine (m : Mark) (how : Combination) (parts : List Grammar) :
    (combine m how parts).unannotated = combine (.ofPos m.pos) how (parts.map unannotated) := resolve_combine ..

theorem unannotated_relabel (m : Mark) (how : Relabelling) (body : Grammar) :
    (relabel m how body).unannotated = relabel (.ofPos m.pos) how body.unannotated := resolve_relabel ..

theorem unannotated_table (m : Mark) (scoping : Scoping) (entries : List (String × Grammar)) :
    (table m scoping entries).unannotated =
      table (.ofPos m.pos) scoping (entries.map fun entry => (entry.1, entry.2.unannotated)) := resolve_table ..

theorem tapesWith_unannotated (f : String → TapeSet) (g : Grammar) : g.unannotated.tapesWith f = g.tapesWith f := by
  rw [unannotated, tapesWith_resolve]
  rfl

theorem embed_mem_nodes_unannotated {g : Grammar} {m : Mark} {symbol : String}
    (h : embed m symbol ∈ g.unannotated.nodes) : ∃ m', embed m' symbol ∈ g.nodes := by
  obtain ⟨m', name, hn, hname⟩ := embed_mem_nodes_resolve h
  cases hname
  exact ⟨m', hn⟩

/-! ## Repaired definitions -/

/-- A definition, what is left of it, and what is reported of that, children before parents and from left to right.
Embeds refer to `symbols`; `made` is the table with every definition repaired, which decides what a body writes on. -/
inductive Repaired (symbols made : SymbolTable Grammar) : Grammar → Grammar → List Message → Prop
  | epsilon (m : Mark) : Repaired symbols made (.epsilon m) (.epsilon (.ofPos m.pos)) []
  | null (m : Mark) : Repaired symbols made (.null m) (.null (.ofPos m.pos)) []
  | literal (m : Mark) (tape text : String) :
      Repaired symbols made (.literal m tape text) (.literal (.ofPos m.pos) tape text) []
  | embed (m : Mark) {symbol : String} : symbols.contains symbol = true →
      Repaired symbols made (.embed m symbol) (.embed (.ofPos m.pos) symbol) []
  /-- An embed of no symbol of the table becomes null. -/
  | unknown (m : Mark) {symbol : String} : symbols.contains symbol = false →
      Repaired symbols made (.embed m symbol) (.null (.ofPos m.pos)) [⟨.unresolvedSymbol symbol, m.pos⟩]
  | combine (m : Mark) (how : Combination) {parts : List (Grammar × Grammar × List Message)} :
      (∀ part ∈ parts, Repaired symbols made part.1 part.2.1 part.2.2) →
      Repaired symbols made (.combine m how (parts.map (·.1))) (.combine (.ofPos m.pos) how (parts.map (·.2.1)))
        (parts.flatMap (·.2.2))
  | single (m : Mark) (tape : String) {body left : Grammar} {report : List Message} :
      Repaired symbols made body left report →
      Repaired symbols made (.relabel m (.single tape) body) (.relabel (.ofPos m.pos) (.single tape) left) report
  | rename (m : Mark) {source target : String} {body left : Grammar} {report : List Message} :
      Repaired symbols made body left report → left.Writes made source →
      Repaired symbols made (.relabel m (.rename source target) body)
        (.relabel (.ofPos m.pos) (.rename source target) left) report
  /-- A rename of a tape that what is left of its body does not write on gives way to that. -/
  | idle (m : Mark) {source target : String} {body left : Grammar} {report : List Message} :
      Repaired symbols made body left report → ¬ left.Writes made source →
      Repaired symbols made (.relabel m (.rename source target) body) left
        (report ++ [⟨.renameMissingTape source target, m.pos⟩])
  | table (m : Mark) {entries : List (String × Grammar × Grammar × List Message)} :
      (∀ entry ∈ entries, Repaired symbols made entry.2.1 entry.2.2.1 entry.2.2.2) →
      Repaired symbols made (.table m .flat (entries.map fun entry => (entry.1, entry.2.1)))
        (.table (.ofPos m.pos) .flat (entries.map fun entry => (entry.1, entry.2.2.1))) (entries.flatMap (·.2.2.2))

/-! ### The messages of annotation -/

namespace Incident

theorem reported_append {met : List Incident} (h : collection ∉ met) (later : List Incident) :
    reported (met ++ later) = reported met ++ reported later := by
  induction met with
  | nil => rfl
  | cons first rest ih =>
    cases first with
    | repair message =>
      rw [List.cons_append, reported, reported, ih fun hmem => h (List.mem_cons_of_mem _ hmem), List.cons_append]
    | collection => exact absurd List.mem_cons_self h

/-- Without collections, each item is reported on in turn. -/
theorem reported_flatMap {α : Type} {items : List α} {met : α → List Incident}
    (h : ∀ item ∈ items, collection ∉ met item) :
    reported (items.flatMap met) = items.flatMap fun item => reported (met item) := by
  induction items with
  | nil => rfl
  | cons first rest ih =>
    obtain ⟨hfirst, hrest⟩ := List.forall_mem_cons.mp h
    rw [List.flatMap_cons, reported_append hfirst, ih hrest, List.flatMap_cons]

end Incident

variable {symbols made : SymbolTable Grammar} {known : Inference} {g left : Grammar} {report : List Message}

theorem collection_notMem_incidents (h : g.hasNested = false) : Incident.collection ∉ g.incidents known := by
  rw [collection_mem_incidents, h]
  exact Bool.false_ne_true

/-- A rename is found to be idle exactly if what is left of its body does not write on its tape. -/
theorem isIdleRename_annotate_iff
    (hwrites : ∀ (h : Grammar) tape, tape ∈ h.tapesWith known.tapesOf ↔ h.Writes made tape) {source target : String} :
    isIdleRename (.rename source target) (g.annotate known) = true ↔
      ¬ (g.annotate known).unannotated.Writes made source := by
  rw [isIdleRename, decide_eq_true_eq, knownTapes_annotate, ← hwrites, tapesWith_unannotated]

/-- Annotation repairs what there is to repair. -/
theorem repaired_annotate (hs : known.Settles symbols)
    (hwrites : ∀ (h : Grammar) tape, tape ∈ h.tapesWith known.tapesOf ↔ h.Writes made tape)
    (hflat : g.hasNested = false) :
    Repaired symbols made g (g.annotate known).unannotated (Incident.reported (g.incidents known)) := by
  induction g with
  | epsilon m => exact .epsilon m
  | null m => exact .null m
  | literal m tape text => exact .literal m tape text
  | embed m symbol =>
    have hcontains := hs.isSome_tapes? symbol
    rw [annotate_eq, incidents_eq, mapChildren, annotateNode, nodeIncidents]
    cases htapes : known.tapes? symbol with
    | some tapes => exact .embed m (by rw [← hcontains, htapes]; rfl)
    | none => exact .unknown m (by rw [← hcontains, htapes]; rfl)
  | combine m how parts ih =>
    rw [hasNested_combine] at hflat
    have hparts : ∀ part ∈ parts.map fun part =>
        (part, (part.annotate known).unannotated, Incident.reported (part.incidents known)),
        Repaired symbols made part.1 part.2.1 part.2.2 := by
      intro _ hmem
      obtain ⟨part, hp, rfl⟩ := List.mem_map.mp hmem
      exact ih part hp (hflat part hp)
    rw [annotate_eq, incidents_combine, Incident.reported_flatMap fun part hp =>
      collection_notMem_incidents (hflat part hp)]
    simpa [mapChildren, annotateNode, withTapes, withMark, pos, mark, unannotated_combine, List.flatMap_map,
      Function.comp_def]
      using Repaired.combine m how hparts
  | relabel m how body ih =>
    rw [hasNested_relabel] at hflat
    have hbody := ih hflat
    rw [annotate_eq, mapChildren, annotateNode, incidents_eq, children, List.flatMap_singleton, nodeIncidents,
      Incident.reported_append (collection_notMem_incidents hflat)]
    cases how with
    | single tape => simpa [isIdleRename, unannotated_relabel, Incident.reported] using Repaired.single m tape hbody
    | rename source target =>
      by_cases hidle : isIdleRename (.rename source target) (body.annotate known) = true
      · rw [if_pos hidle, if_pos hidle]
        exact .idle m hbody ((isIdleRename_annotate_iff hwrites).mp hidle)
      · rw [if_neg hidle, if_neg hidle, Incident.reported, List.append_nil]
        exact .rename m hbody (not_not.mp (mt (isIdleRename_annotate_iff hwrites).mpr hidle))
  | table m scoping entries ih =>
    cases scoping with
    | nested => cases hflat
    | flat =>
      rw [hasNested_flat] at hflat
      have hentries : ∀ entry ∈ entries.map fun entry =>
          (entry.1, entry.2, (entry.2.annotate known).unannotated, Incident.reported (entry.2.incidents known)),
          Repaired symbols made entry.2.1 entry.2.2.1 entry.2.2.2 := by
        intro _ hmem
        obtain ⟨entry, he, rfl⟩ := List.mem_map.mp hmem
        exact ih entry he (hflat entry he)
      rw [annotate_eq, incidents_flat, Incident.reported_flatMap fun entry he =>
        collection_notMem_incidents (hflat entry he)]
      simpa [mapChildren, annotateNode, withTapes, withMark, pos, mark, unannotated_table, List.flatMap_map,
        Function.comp_def]
        using Repaired.table m hentries

/-! ### Reports and changes -/

theorem length_nodes (g : Grammar) : g.nodes.length = (g.children.map fun child => child.nodes.length).sum + 1 := by
  rw [nodes_eq, List.length_cons, List.length_flatMap]

/-- A repair puts no nodes in. -/
theorem Repaired.length_nodes_le (h : Repaired symbols made g left report) : left.nodes.length ≤ g.nodes.length := by
  induction h with
  | combine m how _ ih =>
    rw [length_nodes, length_nodes (.combine ..), children, children, List.map_map, List.map_map]
    exact Nat.succ_le_succ (List.sum_le_sum ih)
  | single m tape _ ih =>
    rw [length_nodes, length_nodes (.relabel ..)]
    exact Nat.succ_le_succ ih
  | rename m _ _ ih =>
    rw [length_nodes, length_nodes (.relabel ..)]
    exact Nat.succ_le_succ ih
  | idle m _ _ ih =>
    rw [length_nodes (.relabel ..)]
    exact Nat.le_succ_of_le ih
  | table m _ ih =>
    rw [length_nodes, length_nodes (.table ..), children, children, List.map_map, List.map_map, List.map_map,
      List.map_map]
    exact Nat.succ_le_succ (List.sum_le_sum ih)
  | _ => exact Nat.le_refl _

/-- There is no report of a definition exactly if it is left as it was. -/
theorem Repaired.report_eq_nil_iff (h : Repaired symbols made g left report) : report = [] ↔ left = g.unannotated := by
  induction h with
  | epsilon m => exact ⟨fun _ => rfl, fun _ => rfl⟩
  | null m => exact ⟨fun _ => rfl, fun _ => rfl⟩
  | literal m tape text => exact ⟨fun _ => rfl, fun _ => rfl⟩
  | embed m _ => exact ⟨fun _ => rfl, fun _ => rfl⟩
  | unknown m _ => exact ⟨nofun, nofun⟩
  | combine m how _ ih =>
    rw [List.flatMap_eq_nil_iff, forall₂_congr ih, unannotated_combine, List.map_map, combine.injEq, List.map_inj_left]
    exact ⟨fun h => ⟨rfl, rfl, h⟩, fun h => h.2.2⟩
  | single m tape _ ih =>
    rw [ih, unannotated_relabel, relabel.injEq]
    exact ⟨fun h => ⟨rfl, rfl, h⟩, fun h => h.2.2⟩
  | rename m _ _ ih =>
    rw [ih, unannotated_relabel, relabel.injEq]
    exact ⟨fun h => ⟨rfl, rfl, h⟩, fun h => h.2.2⟩
  | idle m hbody _ ih =>
    -- what takes the place of the rename is too small to be one of its body
    have hlength := hbody.length_nodes_le
    refine ⟨fun h => absurd h (by simp), fun h => ?_⟩
    rw [h, unannotated, nodes_resolve, List.length_map, length_nodes] at hlength
    exact absurd hlength (Nat.not_succ_le_self _)
  | table m _ ih =>
    rw [List.flatMap_eq_nil_iff, forall₂_congr ih, unannotated_table, List.map_map, table.injEq, List.map_inj_left]
    exact ⟨fun h => ⟨rfl, rfl, fun entry he => congrArg (Prod.mk entry.1) (h entry he)⟩,
      fun h entry he => (Prod.mk.inj (h.2.2 entry he)).2⟩

/-! ## Repaired tables -/

/-- An entry of a table, what is left of it, and what is reported of that, if the symbols in `cut` are reported as
recursive. -/
inductive RepairedEntry (symbols made : SymbolTable Grammar) (cut : List String) :
    String × Grammar → String × Grammar → List Message → Prop
  | cut {name : String} (g : Grammar) :
      name ∈ cut → RepairedEntry symbols made cut (name, g) (name, .null (.ofPos g.pos)) []
  | kept {name : String} {g left : Grammar} {report : List Message} : name ∉ cut → Repaired symbols made g left report →
      RepairedEntry symbols made cut (name, g) (name, left) report

/-- An entry is left as it was exactly if nothing is reported of it, provided that no symbol is cut that embeds
nothing. -/
theorem RepairedEntry.unreported_iff {cut : List String} {entry kept : String × Grammar}
    (h : RepairedEntry symbols made cut entry kept report)
    (hcut : entry.1 ∈ cut → ∃ m symbol, .embed m symbol ∈ entry.2.nodes) :
    entry.1 ∉ cut ∧ report = [] ↔ kept = (entry.1, entry.2.unannotated) := by
  cases h with
  | cut g hmem =>
    refine ⟨fun h => absurd hmem h.1, fun h => ?_⟩
    obtain ⟨m, symbol, hn⟩ := hcut hmem
    cases g with
    | null m' => cases List.mem_singleton.mp hn
    | _ => cases h
  | kept hmem hrepaired => rw [and_iff_right hmem, hrepaired.report_eq_nil_iff, Prod.mk.injEq, and_iff_right rfl]

/-- An account of a run of tape inference on a flat table: the entries, each with what is left of it and what is
reported of that, and the reports of recursion, which come first. -/
structure Accounted (m : Mark) (symbols : SymbolTable Grammar) (run : Except Fault Grammar × List Message)
    (result : Grammar) (recursion : List Message)
    (parts : List ((String × Grammar) × (String × Grammar) × List Message)) : Prop where
  succeeds : run.1 = .ok result
  entries : parts.map (·.1) = symbols
  left : result.unannotated = .table (.ofPos m.pos) .flat (parts.map (·.2.1))
  repaired : ∀ part ∈ parts,
    RepairedEntry symbols (parts.map (·.2.1)) (Message.recursiveSymbols run.2) part.1 part.2.1 part.2.2
  messages : run.2 = recursion ++ parts.flatMap (·.2.2)
  recursive : ∀ message ∈ recursion, ∃ symbol cycle, message.finding = .recursiveEmbed symbol cycle
  /-- Nothing is reported exactly if nothing is changed. -/
  silent : run.2 = [] ↔ result.unannotated = (Grammar.table m .flat symbols).unannotated

end Grammar

namespace Inference

open Grammar

variable {m : Mark} {symbols : SymbolTable Grammar} {known : Inference}

/-- Annotation without the tape sets is a repair of a table too. -/
theorem Settles.repairs_unannotated (hs : known.Settles symbols) :
    Repairs symbols known fun entry => (known.annotateEntry entry).2.unannotated := by
  have hr := hs.repairs_annotateEntry
  refine ⟨fun entry he => ?_, fun entry he m symbol hn => ?_⟩
  · rw [tapesWith_unannotated, hr.tapes entry he]
  · obtain ⟨m', hn'⟩ := embed_mem_nodes_unannotated hn
    exact hr.embeds entry he m' symbol hn'

/-- Every entry is repaired, the recursive ones by making them null. -/
theorem Annotates.repairedEntry {run : Inferred Grammar} (ha : Annotates m symbols run)
    (hflat : ∀ entry ∈ symbols, entry.2.hasNested = false) (distinct : symbols.WellFormed) {entry : String × Grammar}
    (he : entry ∈ symbols) :
    RepairedEntry symbols (symbols.redefine fun entry => (run.known.annotateEntry entry).2.unannotated)
      (Message.recursiveSymbols run.messages) entry (entry.1, (run.known.annotateEntry entry).2.unannotated)
      (Incident.reported (run.known.entryIncidents entry)) := by
  have hiff := ha.mem_recursiveSymbols_iff distinct he
  by_cases hrecursive : Symbol.key entry.1 ∈ run.known.recursive
  · rw [annotateEntry_of_recursive hrecursive, entryIncidents, if_pos (isRecursive_iff.mpr hrecursive)]
    exact .cut entry.2 (hiff.mpr hrecursive)
  · rw [annotateEntry_of_not_recursive hrecursive, entryIncidents, if_neg (mt isRecursive_iff.mp hrecursive)]
    refine .kept (mt hiff.mp hrecursive) (repaired_annotate ha.settles (fun h tape => ?_) (hflat entry he))
    exact ha.settles.mem_tapesWith_iff ha.settles.repairs_unannotated

/-- The messages on a table: reports of recursion, then those on each entry in turn. -/
theorem annotate_table_reports_by_entry (m : Mark) (hflat : ∀ entry ∈ symbols, entry.2.hasNested = false) :
    let run := annotate {} (.table m .flat symbols)
    ∃ recursion, run.messages =
      recursion ++ symbols.flatMap (fun entry => Incident.reported (run.known.entryIncidents entry)) ∧
      ∀ message ∈ recursion, ∃ symbol cycle, message.finding = .recursiveEmbed symbol cycle := by
  intro run
  obtain ⟨reported, messages, hreached, hmessages⟩ := annotate_table_reports m hflat
  obtain ⟨made, hmade⟩ := annotate_table_ok (m := m) hflat
  refine ⟨reported ++ messages, ?_, fun message hmem => ?_⟩
  · rw [hmessages, Incident.reported_flatMap (annotate_table hmade).clear]
  · obtain ⟨first, rest, -, key, -, rfl⟩ := hreached.cycle_of_mem_messages hflat message hmem
    exact ⟨_, _, rfl⟩

/-- Nothing is reported exactly if no entry is cut and nothing is reported of any. -/
theorem messages_eq_nil_iff (hflat : ∀ entry ∈ symbols, entry.2.hasNested = false) (distinct : symbols.WellFormed) :
    let run := annotate {} (.table m .flat symbols)
    run.messages = [] ↔ ∀ entry ∈ symbols, entry.1 ∉ Message.recursiveSymbols run.messages ∧
      Incident.reported (run.known.entryIncidents entry) = [] := by
  intro run
  obtain ⟨recursion, hmessages, hrecursion⟩ := annotate_table_reports_by_entry m hflat
  constructor
  · intro hnil entry he
    rw [hnil] at hmessages ⊢
    obtain ⟨-, hentries⟩ := List.append_eq_nil_iff.mp hmessages.symm
    exact ⟨List.not_mem_nil, List.flatMap_eq_nil_iff.mp hentries entry he⟩
  · intro hentries
    -- a report of recursion would be at an entry, which would be cut
    have hnone : recursion = [] := by
      refine List.eq_nil_iff_forall_not_mem.mpr fun message hmem => ?_
      obtain ⟨symbol, cycle, hfinding⟩ := hrecursion message hmem
      have hreported : message ∈ run.messages := hmessages ▸ List.mem_append_left _ hmem
      obtain ⟨first, rest, hwalk, -, entry, he, rfl, -⟩ := exists_closedWalk_of_report hflat distinct hreported hfinding
      refine (hentries entry (hwalk.mem entry he)).1 (List.mem_filterMap.mpr ⟨message, hreported, ?_⟩)
      rw [Message.recursiveSymbol?, hfinding]
    rw [hmessages, hnone, List.nil_append, List.flatMap_eq_nil_iff]
    exact fun entry he => (hentries entry he).2

/-- The annotated table without the tape sets. -/
theorem unannotated_annotatedEntries (m : Mark) (symbols : SymbolTable Grammar) (known : Inference) :
    (Grammar.table m .flat (known.annotatedEntries symbols)).unannotated =
      .table (.ofPos m.pos) .flat (symbols.redefine fun entry => (known.annotateEntry entry).2.unannotated) := by
  rw [unannotated_table, annotatedEntries, SymbolTable.redefine, SymbolTable.redefine, List.map_map]
  rfl

/-- Nothing is reported exactly if all definitions are left as they were. -/
theorem Annotates.messages_eq_nil_iff_redefine (ha : Annotates m symbols (annotate {} (.table m .flat symbols)))
    (hflat : ∀ entry ∈ symbols, entry.2.hasNested = false) (distinct : symbols.WellFormed) :
    let run := annotate {} (.table m .flat symbols)
    run.messages = [] ↔ (symbols.redefine fun entry => (run.known.annotateEntry entry).2.unannotated) =
      symbols.redefine fun entry => entry.2.unannotated := by
  intro run
  refine (messages_eq_nil_iff hflat distinct).trans ?_
  rw [SymbolTable.redefine, SymbolTable.redefine, List.map_inj_left]
  refine forall₂_congr fun entry he => (ha.repairedEntry hflat distinct he).unreported_iff fun hcut => ?_
  have hrecursive := (ha.mem_recursiveSymbols_iff distinct he).mp hcut
  obtain ⟨defined, -, hget, hembed⟩ := ha.exists_embed_of_recursive hflat hrecursive
  rw [SymbolTable.get?_key, SymbolTable.get?, SymbolTable.entry?_of_mem distinct he rfl] at hget
  rwa [← Option.some.inj hget] at hembed

/-- Tape inference changes what it reports and nothing else. -/
theorem inferTapes_changes_reported (m : Mark) (symbols : SymbolTable Grammar) (distinct : symbols.WellFormed)
    (flat : ∀ entry ∈ symbols, ∀ n ∈ entry.2.nodes, n.isNestedTable = false) :
    ∃ result recursion parts,
      Accounted m symbols (Grammar.table m .flat symbols).inferTapes result recursion parts := by
  have hflat : ∀ entry ∈ symbols, entry.2.hasNested = false := by
    intro entry he
    exact hasNested_eq_false_iff.mpr (flat entry he)
  obtain ⟨made, hmade⟩ := annotate_table_ok (m := m) hflat
  have ha := annotate_table hmade
  obtain ⟨recursion, hmessages, hrecursion⟩ := annotate_table_reports_by_entry m hflat
  let known := (annotate {} (.table m .flat symbols)).known
  let left (entry : String × Grammar) : Grammar := (known.annotateEntry entry).2.unannotated
  let part (entry : String × Grammar) : (String × Grammar) × (String × Grammar) × List Message :=
    (entry, (entry.1, left entry), Incident.reported (known.entryIncidents entry))
  have hleft : (symbols.map part).map (·.2.1) = symbols.redefine left := List.map_map
  refine ⟨_, recursion, symbols.map part, ha.result, ?_, ?_, ?_, ?_, hrecursion, ?_⟩
  · rw [List.map_map]
    exact List.map_id symbols
  · rw [unannotated_annotatedEntries, hleft]
  · rw [hleft]
    intro _ hpart
    obtain ⟨entry, he, rfl⟩ := List.mem_map.mp hpart
    exact ha.repairedEntry hflat distinct he
  · rw [List.flatMap_map]
    exact hmessages
  · rw [unannotated_annotatedEntries, unannotated_table]
    refine (ha.messages_eq_nil_iff_redefine hflat distinct).trans ⟨fun h => congrArg _ h, fun h => ?_⟩
    injection h

/-- With an embed made null that both renames around it had their tapes from, and one rename kept inside another that
goes. -/
theorem inferTapes_changes_reported_renames :
    let symbols : SymbolTable Grammar :=
      [("Loop", .embed {} "loop"),
        ("Stem", .relabel {} (.rename "b" "c") (.relabel {} (.rename "a" "b") (.embed {} "root"))),
        ("Word", .relabel {} (.rename "a" "b") (.relabel {} (.rename "a" "c") (.literal {} "a" "run")))]
    symbols.WellFormed ∧ (∀ entry ∈ symbols, ∀ n ∈ entry.2.nodes, n.isNestedTable = false) ∧
      (Grammar.table {} .flat symbols).inferTapes.2 =
        [⟨.recursiveEmbed "Loop" "Loop -> Loop", none⟩, ⟨.unresolvedSymbol "root", none⟩,
          ⟨.renameMissingTape "a" "b", none⟩, ⟨.renameMissingTape "b" "c", none⟩, ⟨.renameMissingTape "a" "b", none⟩] ∧
      ∃ result recursion parts,
        Accounted {} symbols (Grammar.table {} .flat symbols).inferTapes result recursion parts := by
  intro symbols
  have distinct : symbols.WellFormed := by decide +kernel
  have flat : ∀ entry ∈ symbols, ∀ n ∈ entry.2.nodes, n.isNestedTable = false := by decide +kernel
  exact ⟨distinct, flat, by decide +kernel, inferTapes_changes_reported {} symbols distinct flat⟩

end Inference

end SheetGrammar
