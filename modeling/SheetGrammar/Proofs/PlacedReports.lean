import SheetGrammar.Proofs.CellPlaces
import SheetGrammar.Proofs.DefaultMembers
import SheetGrammar.Proofs.Stability

/-!
Where the messages of a run are. The stages of resolution look at a grammar and not at the sheet, and take the position
of a message from the node that it is about. Two kinds of nodes come without a position. A symbol with nothing written
for it is an epsilon without a mark, and is named in a message if an earlier symbol has its qualified name. And the
embeds in a default that the compiler writes itself are at no cell, and are named in a message if they refer to
nothing.

- `WellNested.definition_cases`: a definition in a tree of collections was read from the sheet, or is a default that
  was written.
- `Origin`: what the nodes of a definition have for positions, in either case.
- `inferTapes_report_cases`: what tape inference reports is about a symbol with an embed in it, an unknown embed, or a
  rename.
- `compile_unplaced_iff`: so the messages of a run that are at no place of the workbook are those of the two kinds
  (`Unplaced`).
-/

namespace SheetGrammar

open SheetGrammar.Symbol

/-- What is given up was there. -/
theorem Definition.mem_of_mem_repeated {seen : List String} {ds : List Definition} {d : Definition}
    (h : d ∈ (partition seen ds).2) : d ∈ ds := by
  induction ds generalizing seen with
  | nil => cases h
  | cons first rest ih =>
    unfold partition at h
    split at h
    · rcases List.mem_cons.mp h with rfl | h
      · exact List.mem_cons_self
      · exact List.mem_cons_of_mem _ (ih h)
    · exact List.mem_cons_of_mem _ (ih h)

/-- What a name refers to is the name of a definition that was kept. -/
theorem Namespace.exists_of_find? {kept : List Definition} {collections scope : List String} {name found : String}
    (h : (Namespace.ofDefinitions kept collections).find? name scope = some found) : ∃ d ∈ kept, d.name = found := by
  have hlookup {key : String} (h : (Namespace.ofDefinitions kept collections).names.lookup key = some found) :
      ∃ d ∈ kept, d.name = found := by
    obtain ⟨before, after, hnames, -⟩ := List.lookup_eq_some_iff.mp h
    have hmem : (key, found) ∈ (Namespace.ofDefinitions kept collections).names := by
      rw [hnames]
      exact List.mem_append_right _ List.mem_cons_self
    obtain ⟨d, hd, hpair⟩ := List.mem_map.mp hmem
    exact ⟨d, hd, congrArg Prod.snd hpair⟩
  have hkey {key : String} (h : (Namespace.ofDefinitions kept collections).atKey? key = some found) :
      ∃ d ∈ kept, d.name = found := by
    unfold atKey? at h
    split at h
    · next heq =>
      cases h
      exact hlookup heq
    · split at h
      · exact hlookup h
      · cases h
  induction scope with
  | nil => exact hkey h
  | cons inner outer ih =>
    unfold find? at h
    split at h
    · next heq =>
      cases h
      exact hkey heq
    · exact ih h

namespace Grammar

variable {g n root c : Grammar} {places : List Position} {refer : String → Option String} {d : Definition}

/-! ## Nodes that keep their positions -/

theorem pos_assignDefaults (g : Grammar) : g.assignDefaults.pos = g.pos := by
  cases g with
  | table m scoping entries => cases scoping <;> rfl
  | _ => rfl

theorem nodes_assignDefaults (h : g.hasNested = false) : g.assignDefaults.nodes = g.nodes.map assignDefaults := by
  refine nodes_rewrite fun n hn => ?_
  have hplain : (n.mapChildren assignDefaults).isNestedTable = false := by
    rw [isNestedTable_mapChildren, hasNested_eq_false_iff.mp h n hn]
  change n.assignDefaults.children = n.children.map assignDefaults
  rw [assignDefaults_eq, assignDefault_of_plain hplain, withoutTapes, children_withMark, children_mapChildren]

theorem Sourced.assignDefaults (h : g.Sourced places) (hflat : g.hasNested = false) :
    g.assignDefaults.Sourced places := by
  intro n hn
  rw [nodes_assignDefaults hflat] at hn
  obtain ⟨original, ho, rfl⟩ := List.mem_map.mp hn
  rcases h original ho with rfl | hpos
  · exact .inl rfl
  · exact .inr (by rwa [pos_assignDefaults])

theorem relabel_mem_nodes_resolve {m : Mark} {how : Relabelling} {body : Grammar}
    (h : relabel m how body ∈ (g.resolve refer).nodes) :
      ∃ m' body', relabel m' how body' ∈ g.nodes ∧ m.pos = m'.pos := by
  rw [nodes_resolve] at h
  obtain ⟨original, ho, he⟩ := List.mem_map.mp h
  cases original with
  | relabel m' how' body' =>
    cases he
    exact ⟨m', body', ho, rfl⟩
  | embed m' symbol =>
    rw [resolve_embed] at he
    split at he
    · cases he
    · cases he
  | _ => cases he

/-! ## Where definitions come from -/

/-- The definition is the default that was written for a collection that had none, at the end of the path. -/
structure IsDefault (root : Grammar) (scope path : List String) (c : Grammar) (d : Definition) : Prop where
  leads : Leads root path c
  nested : c.isNestedTable = true
  missing : c.inner.contains allName = false
  eq : d = ⟨qualifyIn (scope ++ path) allName, scope ++ path,
    defaultOf c.pos (c.inner.redefine fun entry => entry.2.assignDefaults)⟩

theorem WellNested.hasNested_eq_false (h : g.WellNested) (hg : g.isNestedTable = false) : g.hasNested = false := by
  cases h with
  | plain hflat => exact hflat
  | collection _ _ => cases hg

/-- A member of a collection with its default was there before, or is the default. -/
theorem assigned_member_cases {m : Mark} {members : SymbolTable Grammar} {entry : String × Grammar}
    (h : entry ∈ (table m .nested members).assignDefaults.inner) :
    (∃ original ∈ members, entry = (original.1, original.2.assignDefaults)) ∨
      members.contains allName = false ∧
        entry = (allName, defaultOf m.pos (members.redefine fun entry => entry.2.assignDefaults)) := by
  rw [assignDefaults_nested, inner, withDefault, SymbolTable.contains_redefine] at h
  have hmember (h : entry ∈ members.redefine fun entry => entry.2.assignDefaults) :
      ∃ original ∈ members, entry = (original.1, original.2.assignDefaults) := by
    obtain ⟨original, ho, he⟩ := List.mem_map.mp h
    exact ⟨original, ho, he.symm⟩
  split at h
  · exact .inl (hmember h)
  · next hmissing =>
    rcases List.mem_append.mp h with h | h
    · exact .inl (hmember h)
    · exact .inr ⟨Bool.eq_false_iff.mpr hmissing, List.mem_singleton.mp h⟩

/-- A definition in a tree of collections was there before there were defaults, or is one of them. -/
theorem WellNested.definition_cases (h : g.WellNested) {scope : List String}
    (hd : d ∈ definitions scope g.assignDefaults.inner) :
    (∃ n : Grammar, n.hasNested = false ∧ n.nodes ⊆ g.nodes ∧ d.body = n.assignDefaults) ∨
      ∃ path c, IsDefault g scope path c d := by
  induction h generalizing scope with
  | @plain g hflat =>
    have hnested : g.assignDefaults.isNestedTable = false := by
      rw [isNestedTable_assignDefaults]
      exact isNestedTable_of_hasNested hflat
    rw [inner_of_not_nested hnested] at hd
    cases hd
  | @collection m members hmembers ih =>
    rw [definitions_eq] at hd
    obtain ⟨entry, he, hd⟩ := List.mem_flatMap.mp hd
    rcases assigned_member_cases he with ⟨original, ho, rfl⟩ | ⟨hmissing, rfl⟩
    · have hsub : original.2.nodes ⊆ (table m .nested members).nodes :=
        fun n hn => mem_nodes_table.mpr (.inr ⟨original, ho, hn⟩)
      cases hnested : original.2.isNestedTable with
      | false =>
        rw [definitionsOf_leaf ((isNestedTable_assignDefaults _).trans hnested)] at hd
        rw [List.mem_singleton.mp hd]
        exact .inl ⟨original.2, (hmembers original ho).hasNested_eq_false hnested, hsub, rfl⟩
      | true =>
        rw [definitionsOf_of_nested ((isNestedTable_assignDefaults _).trans hnested)] at hd
        rcases ih original ho hd with ⟨n, hflat, hn, hbody⟩ | ⟨path, c, hdefault⟩
        · exact .inl ⟨n, hflat, fun _ h => hsub (hn h), hbody⟩
        · refine .inr ⟨original.1 :: path, c, .inside ho hdefault.leads, hdefault.nested, hdefault.missing, ?_⟩
          rw [hdefault.eq, List.append_assoc]
          rfl
    · rw [definitionsOf_leaf rfl] at hd
      refine .inr ⟨[], table m .nested members, .here _, rfl, hmissing, ?_⟩
      rw [List.mem_singleton.mp hd, List.append_nil]
      rfl

inductive Origin (places : List Position) (root : Grammar) (d : Definition) : Prop
  /-- It was read from the sheet. -/
  | written : d.body.Sourced places → Origin places root d
  /-- It was written for a collection, and stands where the collection does. -/
  | made {path : List String} {c : Grammar} : IsDefault root [] path c d → At places c.pos → Origin places root d

theorem origin_of_mem (hroot : root.WellNested) (hs : root.Sourced places)
    (hd : d ∈ definitions [] root.assignDefaults.inner) : Origin places root d := by
  rcases hroot.definition_cases hd with ⟨n, hflat, hsub, hbody⟩ | ⟨path, c, hdefault⟩
  · refine .written ?_
    have hn : n.Sourced places := fun k hk => hs k (hsub hk)
    rw [hbody]
    exact hn.assignDefaults hflat
  · refine .made hdefault ((hs c hdefault.leads.mem_nodes).resolve_left ?_)
    intro he
    have hnested := hdefault.nested
    rw [he] at hnested
    cases hnested

theorem mem_nodes_defaultOf {pos : Option Position} {entries : List (String × Grammar)} :
    n ∈ (defaultOf pos entries).nodes ↔ n = defaultOf pos entries ∨ ∃ entry ∈ entries, n = memberEmbed entry := by
  have hembed (entry : String × Grammar) : n ∈ (memberEmbed entry).nodes ↔ n = memberEmbed entry := List.mem_singleton
  rw [defaultOf, mem_nodes_combine]
  simp only [List.mem_map, exists_exists_and_eq_and, hembed]

namespace Origin

variable (h : Origin places root d)
include h

/-- Only a definition for which nothing is written has no place. -/
theorem at_pos (hbody : d.body ≠ .epsilon {}) : At places d.body.pos := by
  cases h with
  | written hs => exact (hs d.body (self_mem_nodes _)).resolve_left hbody
  | made hdefault hpos =>
    rw [hdefault.eq]
    exact hpos

theorem at_relabel {m : Mark} {how : Relabelling} {body : Grammar} (hn : relabel m how body ∈ d.body.nodes) :
    At places m.pos := by
  cases h with
  | written hs => exact (hs _ hn).resolve_left nofun
  | made hdefault _ =>
    rw [hdefault.eq] at hn
    rcases mem_nodes_defaultOf.mp hn with he | ⟨entry, -, he⟩
    · cases he
    · cases he

/-- Only a default that was written has embeds without a place. -/
theorem at_embed {m : Mark} {symbol : String} (hn : embed m symbol ∈ d.body.nodes) :
    At places m.pos ∨ ∃ path c, IsDefault root [] path c d ∧
      ∃ entry ∈ c.inner, embed m symbol = memberEmbed (entry.1, entry.2.assignDefaults) := by
  cases h with
  | written hs => exact .inl ((hs _ hn).resolve_left nofun)
  | @made path c hdefault _ =>
    refine .inr ⟨path, c, hdefault, ?_⟩
    rw [hdefault.eq] at hn
    rcases mem_nodes_defaultOf.mp hn with he | ⟨entry, he, heq⟩
    · cases he
    · obtain ⟨original, ho, rfl⟩ := List.mem_map.mp he
      exact ⟨original, ho, heq⟩

end Origin

/-! ## What tape inference reports -/

end Grammar

/-- Every message of the walk says of a symbol that it is recursive, and it is. -/
theorem Progress.Reached.exists_of_mem_messages {symbols : SymbolTable Grammar} {p : Progress} (h : Reached symbols p) :
    ∀ message ∈ p.reported ++ p.walk.messages,
      ∃ cycle, ∃ key ∈ p.walk.known.recursive, message = Inference.recursionMessage symbols cycle key := by
  induction h with
  | refl => exact fun _ hmem => nomatch hmem
  | @tail p q _ hm ih =>
    cases hm with
    | @walk names reported walk next hw =>
      intro message hmem
      have hold (hmem : message ∈ reported ++ walk.messages) :
          ∃ cycle, ∃ key ∈ next.known.recursive, message = Inference.recursionMessage symbols cycle key := by
        obtain ⟨cycle, key, hkey, he⟩ := ih message hmem
        exact ⟨cycle, key, hw.recursive_subset hkey, he⟩
      cases hw with
      | close _ _ =>
        rw [Inference.closeCycle_eq, ← List.append_assoc] at hmem
        rcases List.mem_append.mp hmem with hmem | hmem
        · exact hold hmem
        · obtain ⟨key, hkey, rfl⟩ := List.mem_map.mp hmem
          refine ⟨_, key, ?_, rfl⟩
          rw [Inference.closeCycle_eq]
          exact List.mem_append_left _ (List.mem_reverse.mpr hkey)
      | _ => exact hold hmem
    | start _ _ => simpa [Walk.begun] using ih
    | skip _ => exact ih

namespace Inference

variable {m : Mark} {symbols : SymbolTable Grammar} {run : Inferred Grammar}

/-- A recursive symbol has an embed in its definition. -/
theorem Annotates.exists_embed_of_recursive (ha : Annotates m symbols run)
    (hflat : ∀ entry ∈ symbols, entry.2.hasNested = false) {key : String} (h : key ∈ run.known.recursive) :
    ∃ entry ∈ symbols, symbols.get? key = some entry.2 ∧ ∃ m' symbol, Grammar.embed m' symbol ∈ entry.2.nodes := by
  have hcanonical : Symbol.key key = key := ha.settles.canonical key h
  have hcontains := (ha.settles.recursive key (hcanonical.symm ▸ h)).1
  obtain ⟨before, -, hiff⟩ := ha.mem_recursive_iff hflat hcontains
  rw [hcanonical] at hiff
  obtain ⟨next, ⟨⟨g, m', symbol, hg, hn, -⟩, -⟩, -⟩ := Relation.TransGen.head'_iff.mp (hiff.mp h)
  obtain ⟨entry, he, -, rfl⟩ := SymbolTable.mem_of_get? hg
  exact ⟨entry, he, hg, m', symbol, hn⟩

end Inference

namespace Grammar

/-- What tape inference reports of a table is at a symbol that has an embed in its definition, at an embed of no symbol
of the table, or at a rename. -/
theorem inferTapes_report_cases {m : Mark} {symbols : SymbolTable Grammar}
    (hflat : ∀ entry ∈ symbols, entry.2.hasNested = false) {message : Message}
    (h : message ∈ (table m .flat symbols).inferTapes.2) :
    ∃ entry ∈ symbols,
      (message.pos = entry.2.pos ∧ ∃ m' symbol, embed m' symbol ∈ entry.2.nodes) ∨
      (∃ m' symbol, embed m' symbol ∈ entry.2.nodes ∧ symbols.contains symbol = false) ∨
      ∃ m' how body, relabel m' how body ∈ entry.2.nodes ∧ message.pos = m'.pos := by
  obtain ⟨made, hmade⟩ := Inference.annotate_table_ok (m := m) hflat
  have ha := Inference.annotate_table hmade
  have hsettled := Inference.settleTable_ok hflat {}
  obtain ⟨reported, messages, hreached, hmessages⟩ := Inference.settleTable_reached hsettled
  unfold inferTapes at h
  unfold Inference.annotate at h ha
  simp only [hsettled] at h ha
  rcases List.mem_append.mp h with h | h
  · rw [← hmessages] at h
    obtain ⟨cycle, key, hkey, rfl⟩ := hreached.exists_of_mem_messages message h
    obtain ⟨entry, he, hget, hembed⟩ := ha.exists_embed_of_recursive hflat hkey
    refine ⟨entry, he, .inl ⟨?_, hembed⟩⟩
    rw [Inference.recursionMessage, hget]
    rfl
  · obtain ⟨entry, he, hmet⟩ := List.mem_flatMap.mp (Incident.repair_mem_of_mem_reported h)
    obtain ⟨n, hn, hrepair⟩ := mem_incidents_iff.mp (Inference.mem_entryIncidents.mp hmet).2
    refine ⟨entry, he, .inr ?_⟩
    obtain ⟨m', symbol, rfl, htapes, -⟩ | ⟨m', how, body, rfl, -, rfl⟩ := repair_mem_nodeIncidents.mp hrepair
    · refine .inl ⟨m', symbol, hn, ?_⟩
      rw [← ha.settles.isSome_tapes?, htapes]
      rfl
    · exact .inr ⟨m', how, body, hn, rfl⟩

/-! ## What flattening reports -/

variable {g root : Grammar} {message : Message} {places : List Position}

theorem mem_qualifyNames_messages (hg : g.isNestedTable = true) :
    message ∈ g.qualifyNames.2 ↔
      (∃ d ∈ (flattening g.inner).2, message = ⟨.ambiguousSymbol d.name, d.body.pos⟩) ∨
      ∃ d ∈ (flattening g.inner).1, ∃ m symbol, embed m symbol ∈ d.body.nodes ∧
        d.refer (namespaceOf g.inner) symbol = none ∧
        message = ⟨.unresolvedSymbol symbol, m.pos⟩ := by
  obtain ⟨m, hg⟩ := exists_eq_of_nested hg
  have hmessages : g.qualifyNames.2 = (flattening g.inner).2.map (fun d => ⟨.ambiguousSymbol d.name, d.body.pos⟩) ++
      (flattening g.inner).1.flatMap fun d => d.body.unresolved (d.refer (namespaceOf g.inner)) := by
    conv => lhs; rw [hg]
    rfl
  rw [hmessages, List.mem_append, List.mem_map, List.mem_flatMap]
  simp only [mem_unresolved, eq_comm]

/-- An embed that was rewritten is of a symbol of the table. -/
theorem contains_of_embed_mem_resolve {entries : List (String × Grammar)} {d : Definition} {m : Mark} {symbol : String}
    (h : embed m symbol ∈ (d.body.resolve (d.refer (namespaceOf entries))).nodes) :
    SymbolTable.contains
      ((flattening entries).1.map fun d => (d.name, d.body.resolve (d.refer (namespaceOf entries)))) symbol = true := by
  obtain ⟨_, text, -, hrefer⟩ := embed_mem_nodes_resolve h
  have hfind : (Namespace.ofDefinitions (flattening entries).1 (collectionKeys [] entries)).find? text d.scope.reverse =
    some symbol := hrefer
  obtain ⟨target, htarget, hname⟩ := Namespace.exists_of_find? hfind
  refine SymbolTable.contains_iff.mpr ⟨_, List.mem_map_of_mem htarget, ?_⟩
  rw [hname]

/-- What tape inference reports of a flattened tree of collections is at a place. -/
theorem at_of_mem_inferTapes (hnested : root.isNestedTable = true) (hroot : root.WellNested) (hs : root.Sourced places)
    (h : message ∈ root.assignDefaults.qualifyNames.1.inferTapes.2) : At places message.pos := by
  obtain ⟨m, hassigned⟩ := exists_eq_of_nested ((isNestedTable_assignDefaults root).trans hnested)
  let entries := root.assignDefaults.inner
  let symbols := (flattening entries).1.map fun d => (d.name, d.body.resolve (d.refer (namespaceOf entries)))
  have hflattened : root.assignDefaults.qualifyNames.1 = table (.ofPos m.pos) .flat symbols := by
    rw [hassigned]
    rfl
  have horigin {d : Definition} (hd : d ∈ (flattening entries).1) : Origin places root d :=
    origin_of_mem hroot hs (Definition.mem_of_mem_partition hd)
  have hflat : ∀ entry ∈ symbols, entry.2.hasNested = false := by
    obtain ⟨symbols', hq, hflat⟩ := (hassigned ▸ hroot.assignDefaults).qualifyNames
    rw [← hassigned, hflattened] at hq
    cases hq
    exact hflat
  rw [hflattened] at h
  obtain ⟨entry, he, hcases⟩ := inferTapes_report_cases hflat h
  obtain ⟨d, hd, rfl⟩ := List.mem_map.mp he
  rcases hcases with ⟨hpos, m', symbol, hn⟩ | ⟨m', symbol, hn, hunknown⟩ | ⟨m', how, body, hn, hpos⟩
  · rw [hpos, pos_resolve]
    refine (horigin hd).at_pos ?_
    intro hblank
    rw [hblank] at hn
    cases List.mem_singleton.mp hn
  · rw [contains_of_embed_mem_resolve hn] at hunknown
    cases hunknown
  · obtain ⟨original, inside, horiginal, hm⟩ := relabel_mem_nodes_resolve hn
    rw [hpos, hm]
    exact (horigin hd).at_relabel horiginal

end Grammar

/-! ## Whole runs -/

namespace Sheet.Tree

inductive Unplaced (workbook : Tree) : Message → Prop
  /-- A symbol with nothing written for it, of whose qualified name there is an earlier one. -/
  | blank {d : Definition} :
      d ∈ (Grammar.flattening workbook.grammar.value.assignDefaults.inner).2 → d.body = .epsilon {} →
      Unplaced workbook ⟨.ambiguousSymbol d.name, none⟩
  /-- A member of a collection whose default is written by the compiler, if the name that it has there refers to
  nothing. -/
  | member {path : List String} {c : Grammar} {d : Definition} {entry : String × Grammar} {symbol : String} :
      Grammar.IsDefault workbook.grammar.value [] path c d →
      d ∈ (Grammar.flattening workbook.grammar.value.assignDefaults.inner).1 → entry ∈ c.inner →
      Grammar.memberEmbed (entry.1, entry.2.assignDefaults) = .embed {} symbol →
      d.refer (Grammar.namespaceOf workbook.grammar.value.assignDefaults.inner) symbol = none →
      Unplaced workbook ⟨.unresolvedSymbol symbol, none⟩

variable {workbook : Tree} {message : Message}

theorem isNestedTable_assigned (workbook : Tree) : workbook.grammar.value.assignDefaults.isNestedTable = true :=
  (Grammar.isNestedTable_assignDefaults _).trans workbook.gives_grammar.1.1

/-- What is found in a workbook is at one of its places, or is of one of the two kinds. -/
theorem at_or_unplaced (h : message ∈ workbook.reports) :
    At workbook.places message.pos ∨ workbook.Unplaced message := by
  by_cases hempty : workbook = .empty
  · subst hempty
    cases h
  obtain ⟨hsourced, hmessages⟩ := stays_grammar hempty
  obtain ⟨hnested, hwell⟩ := workbook.gives_grammar.1
  simp only [reports, List.mem_append] at h
  rcases h with (((h | h) | h) | h) | h
  · exact .inl (at_of_mem_implicitTables h)
  · exact .inl ((at_of_mem_misfits h).mono (places_withTables_subset workbook))
  · exact .inl (hmessages message h)
  · rcases (Grammar.mem_qualifyNames_messages workbook.isNestedTable_assigned).mp h with
      ⟨d, hd, rfl⟩ | ⟨d, hd, m, symbol, hn, hrefer, rfl⟩
    · have horigin := Grammar.origin_of_mem hwell hsourced (Definition.mem_of_mem_repeated hd)
      by_cases hblank : d.body = .epsilon {}
      · rw [hblank]
        exact .inr (.blank hd hblank)
      · exact .inl (horigin.at_pos hblank)
    · have horigin := Grammar.origin_of_mem hwell hsourced (Definition.mem_of_mem_partition hd)
      rcases horigin.at_embed hn with hpos | ⟨path, c, hdefault, entry, he, hmember⟩
      · exact .inl hpos
      · cases hmember
        exact .inr (.member hdefault hd he rfl hrefer)
  · exact .inl (Grammar.at_of_mem_inferTapes hnested hwell hsourced h)

theorem Unplaced.mem_reports (h : workbook.Unplaced message) : message ∈ workbook.reports := by
  have hnames : message ∈ workbook.grammar.value.assignDefaults.qualifyNames.2 := by
    refine (Grammar.mem_qualifyNames_messages workbook.isNestedTable_assigned).mpr ?_
    cases h with
    | blank hd hblank => exact .inl ⟨_, hd, by rw [hblank]; rfl⟩
    | @member path c d entry symbol hdefault hd he hmember hrefer =>
      refine .inr ⟨d, hd, {}, symbol, ?_, hrefer, rfl⟩
      rw [hdefault.eq, Grammar.mem_nodes_defaultOf]
      exact .inr ⟨_, List.mem_map_of_mem he, hmember.symm⟩
  simp only [reports, List.mem_append]
  exact .inl (.inr hnames)

theorem Unplaced.isSevere (h : workbook.Unplaced message) : message.isSevere = true := by
  cases h <;> rfl

theorem Unplaced.pos_eq_none (h : workbook.Unplaced message) : message.pos = none := by
  cases h <;> rfl

end Sheet.Tree

/-- Every message of a run is at a cell, a header or a row of the workbook, but for two kinds: that a symbol with
nothing written for it has the qualified name of an earlier one, and that the default that was written for a collection
embeds a member by a name that refers to nothing. Messages of these kinds are reported under all settings, and at no
position. -/
theorem compile_unplaced_iff (settings : Settings) (workbook : Sheet.Tree) (message : Message) :
    message ∈ (compile settings workbook).messages ∧ ¬At workbook.places message.pos ↔ workbook.Unplaced message := by
  rw [compile_messages]
  constructor
  · rintro ⟨hmem, hplace⟩
    exact (Sheet.Tree.at_or_unplaced (List.mem_of_mem_filter hmem)).resolve_left hplace
  · intro h
    refine ⟨List.mem_filter.mpr ⟨h.mem_reports, by simp [h.isSevere]⟩, ?_⟩
    rintro ⟨place, -, hpos⟩
    rw [h.pos_eq_none] at hpos
    cases hpos

-- The default of the workbook embeds that of `B`, which is a collection in which the default is a collection again.
example :
    let inside (name : String) (row : UInt64) (children : List Sheet.Tree) :=
      Sheet.Tree.collection ⟨name, ⟨"S", row, 0⟩⟩ name children
    (compile {} (inside "S" 0 [inside "B" 1 [inside ".all" 2 [inside ".all" 3 []]]])).messages =
      [⟨.unresolvedSymbol "B..all", none⟩] := by
  decide +kernel

/-- `A.b` and the `b` of `A` have one qualified name, and nothing is written for either. The message on the second is
at no cell. -/
theorem blank_symbol_unplaced :
    let nothing (name : String) (row : UInt64) :=
      Sheet.Tree.op ⟨name ++ " =", ⟨"S", row, 0⟩⟩ (.assign name) .empty .empty
    let workbook := Sheet.Tree.collection ⟨"S", ⟨"S", 0, 0⟩⟩ "S"
      [nothing "A.b" 1, .collection ⟨"A", ⟨"S", 2, 0⟩⟩ "A" [nothing "b" 3]]
    (compile {} workbook).messages = [⟨.ambiguousSymbol "A.b", none⟩] ∧ ¬At workbook.places none := by
  decide +kernel

end SheetGrammar
