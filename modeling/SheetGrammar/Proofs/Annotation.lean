import SheetGrammar.Proofs.Settlement

/-!
Annotation of a definition, given what is settled. A node is annotated with the tapes that its own text has, and a
repair does not change the tapes of what it repairs: an embed of an unknown symbol had none, and a rename of a tape
that is not there renames nothing.

- `Repairs`: a way to repair the entries of a table that does away with the recursive symbols and with the embeds of
  unknown ones and, as far as tapes and embeds go, changes nothing else.
- `tapesWith_annotate`: the repaired definition has the tapes of the original.
- `tapes_of_mem_nodes_annotate`: every node of it is annotated with the tapes that it has.
- `Incident.outcome_eq_ok_iff`, `collection_mem_incidents`: annotation fails exactly on collections.
-/

namespace SheetGrammar

namespace Grammar

variable {known : Inference} {g n : Grammar}

theorem knownTapes_of_tapes {tapes : TapeSet} (h : g.tapes = some tapes) : g.knownTapes = tapes := by
  rw [knownTapes, h]; rfl

/-- Grammars that are annotated with their tapes have these in their union. -/
theorem unionOf_eq {f : String → TapeSet} {gs : List Grammar} (h : ∀ g ∈ gs, g.tapes = some (g.tapesWith f)) :
    unionOf gs = TapeSet.unionAll (gs.map (tapesWith f)) := by
  rw [unionOf, List.map_congr_left fun g hg => knownTapes_of_tapes (h g hg)]

/-- The tapes of a symbol that is not settled are none. -/
theorem tapesOf_of_tapes?_eq_none {symbol : String} (h : known.tapes? symbol = none) : known.tapesOf symbol = ∅ := by
  rw [Inference.tapesOf, h]; rfl

theorem tapesOf_of_tapes? {symbol : String} {tapes : TapeSet} (h : known.tapes? symbol = some tapes) :
    known.tapesOf symbol = tapes := by
  rw [Inference.tapesOf, h]; rfl

/-! ## Tapes of what annotation makes -/

theorem annotate_eq (known : Inference) (g : Grammar) :
    g.annotate known = annotateNode known (g.mapChildren (annotate known)) := rewrite_eq _ g

/-- A node of what annotation makes is made of the grammar itself or of a child. -/
theorem mem_nodes_annotate (h : n ∈ (g.annotate known).nodes) :
    n = g.annotate known ∨ ∃ child ∈ g.children, n ∈ (child.annotate known).nodes := by
  have hinner : ∀ {made : Grammar}, made.children = (g.mapChildren (annotate known)).children → n ∈ made.nodes →
      n = made ∨ ∃ child ∈ g.children, n ∈ (child.annotate known).nodes := by
    intro made hmade hn
    rcases mem_nodes_iff.mp hn with rfl | ⟨child, hc, hn⟩
    · exact .inl rfl
    · rw [hmade, children_mapChildren] at hc
      obtain ⟨original, ho, rfl⟩ := List.mem_map.mp hc
      exact .inr ⟨original, ho, hn⟩
  rw [annotate_eq] at h ⊢
  cases g with
  | embed m symbol =>
    refine hinner ?_ h
    rw [mapChildren, annotateNode]
    split <;> rfl
  | relabel m how body =>
    rw [mapChildren, annotateNode] at h ⊢
    split at h
    · exact .inr ⟨body, List.mem_singleton_self body, h⟩
    · next hbusy =>
      rw [if_neg hbusy]
      exact hinner rfl h
  | _ => exact hinner rfl h

theorem exists_of_mem_nodes_annotate (h : n ∈ (g.annotate known).nodes) :
    ∃ original ∈ g.nodes, original.annotate known = n := by
  induction g using inductChildren with
  | step g ih =>
    rcases mem_nodes_annotate h with rfl | ⟨child, hc, hn⟩
    · exact ⟨g, self_mem_nodes g, rfl⟩
    · obtain ⟨original, ho, rfl⟩ := ih child hc hn
      exact ⟨original, mem_nodes_of_mem_children hc ho, rfl⟩

theorem tapes_annotate (known : Inference) (g : Grammar) :
    (g.annotate known).tapes = some ((g.annotate known).tapesWith known.tapesOf) := by
  induction g with
  | epsilon m => rfl
  | null m => rfl
  | literal m tape text => rfl
  | embed m symbol =>
    rw [annotate_eq, mapChildren, annotateNode]
    split
    · next tapes ht => rw [tapesWith_embed, tapesOf_of_tapes? ht]; rfl
    · rfl
  | combine m how parts ih =>
    rw [annotate_eq, mapChildren]
    exact congrArg some ((unionOf_eq (List.forall_mem_map.mpr ih)).trans (tapesWith_combine ..).symm)
  | relabel m how body ih =>
    rw [annotate_eq, mapChildren, annotateNode]
    split
    · exact ih
    · rw [tapesWith_relabel, ← knownTapes_of_tapes ih]; rfl
  | table m scoping entries ih =>
    rw [annotate_eq, mapChildren]
    refine congrArg some ((unionOf_eq ?_).trans (tapesWith_table ..).symm)
    rw [children, List.map_map]
    exact List.forall_mem_map.mpr ih

/-- Every node is annotated with the tapes that it has. -/
theorem tapes_of_mem_nodes_annotate (h : n ∈ (g.annotate known).nodes) :
    n.tapes = some (n.tapesWith known.tapesOf) := by
  obtain ⟨original, -, rfl⟩ := exists_of_mem_nodes_annotate h
  exact tapes_annotate known original

theorem knownTapes_annotate (known : Inference) (g : Grammar) :
    (g.annotate known).knownTapes = (g.annotate known).tapesWith known.tapesOf :=
  knownTapes_of_tapes (tapes_annotate known g)

/-- Repairs do not change what a definition writes on. -/
theorem tapesWith_annotate (known : Inference) (g : Grammar) :
    (g.annotate known).tapesWith known.tapesOf = g.tapesWith known.tapesOf := by
  induction g using inductChildren with
  | step g ih =>
    rw [annotate_eq]
    cases g with
    | embed m symbol =>
      rw [mapChildren, annotateNode]
      split
      · rfl
      · next hn => exact (tapesOf_of_tapes?_eq_none hn).symm
    | relabel m how body =>
      have hbody := ih body (List.mem_singleton_self body)
      rw [mapChildren, annotateNode, tapesWith_relabel]
      split
      · next hidle =>
        cases how with
        | rename source target =>
          rw [isIdleRename, decide_eq_true_eq, knownTapes_annotate, hbody] at hidle
          rw [hbody]
          exact (TapeSet.rename_of_notMem hidle).symm
        | single tape => cases hidle
      · rw [tapesWith_relabel, hbody]
    | _ => exact (tapesWith_withMark ..).trans (tapesWith_mapChildren (fun _ _ h => by cases h) ih)

/-- An embed that is left names a settled symbol, and stood in the original. -/
theorem embed_mem_nodes_annotate {m : Mark} {symbol : String} (h : embed m symbol ∈ (g.annotate known).nodes) :
    (known.tapes? symbol).isSome = true ∧ ∃ m', embed m' symbol ∈ g.nodes := by
  induction g using inductChildren with
  | step g ih =>
    rcases mem_nodes_annotate h with he | ⟨child, hc, hn⟩
    · rw [annotate_eq] at he
      cases g with
      | embed m' symbol' =>
        rw [mapChildren, annotateNode] at he
        split at he
        · next tapes ht =>
          cases he
          exact ⟨by rw [ht]; rfl, m', self_mem_nodes _⟩
        · cases he
      | relabel m' how body =>
        -- An idle rename gives way to its body, whose nodes are those of a child.
        have hbody : embed m symbol ∈ (body.annotate known).nodes := by
          rw [mapChildren, annotateNode] at he
          split at he
          · exact he ▸ self_mem_nodes _
          · cases he
        obtain ⟨hs, m'', hm⟩ := ih body (List.mem_singleton_self body) hbody
        exact ⟨hs, m'', mem_nodes_relabel.mpr (.inr hm)⟩
      | _ => cases he
    · obtain ⟨hs, m', hm⟩ := ih child hc hn
      exact ⟨hs, m', mem_nodes_of_mem_children hc hm⟩

/-- Annotation neither makes nor removes a collection. -/
theorem hasNested_annotate (known : Inference) (g : Grammar) : (g.annotate known).hasNested = g.hasNested := by
  induction g using inductChildren with
  | step g ih =>
    rw [annotate_eq]
    cases g with
    | embed m symbol => rw [mapChildren, annotateNode]; split <;> rfl
    | relabel m how body =>
      rw [mapChildren, annotateNode, hasNested_relabel, ← ih body (List.mem_singleton_self body)]
      split
      · rfl
      · exact hasNested_relabel ..
    | _ => exact (hasNested_withMark ..).trans (hasNested_mapChildren ih)

/-! ## What annotation meets -/

theorem incidents_eq (known : Inference) (g : Grammar) :
    g.incidents known = g.children.flatMap (incidents known) ++ g.nodeIncidents known := fold_eq _ g

theorem incidents_combine (m : Mark) (how : Combination) (parts : List Grammar) :
    (combine m how parts).incidents known = parts.flatMap (incidents known) :=
  (incidents_eq known _).trans (List.append_nil _)

theorem incidents_flat (m : Mark) (entries : List (String × Grammar)) :
    (table m .flat entries).incidents known = entries.flatMap fun entry => entry.2.incidents known :=
  (incidents_eq known _).trans ((List.append_nil _).trans (List.flatMap_map ..))

/-- What is met is met at a node. -/
theorem mem_incidents_iff {incident : Incident} :
    incident ∈ g.incidents known ↔ ∃ n ∈ g.nodes, incident ∈ n.nodeIncidents known := by
  induction g using inductChildren with
  | step g ih =>
    rw [incidents_eq, List.mem_append, List.mem_flatMap]
    constructor
    · rintro (⟨child, hc, hi⟩ | hi)
      · obtain ⟨n, hn, hi⟩ := (ih child hc).mp hi
        exact ⟨n, mem_nodes_of_mem_children hc hn, hi⟩
      · exact ⟨g, self_mem_nodes g, hi⟩
    · rintro ⟨n, hn, hi⟩
      rcases mem_nodes_iff.mp hn with rfl | ⟨child, hc, hn⟩
      · exact .inr hi
      · exact .inl ⟨child, hc, (ih child hc).mpr ⟨n, hn, hi⟩⟩

/-- A node is repaired if it embeds an unknown symbol or renames a tape that its body does not have. -/
theorem repair_mem_nodeIncidents {message : Message} : Incident.repair message ∈ n.nodeIncidents known ↔
    (∃ m symbol, n = embed m symbol ∧ known.tapes? symbol = none ∧ message = ⟨.unresolvedSymbol symbol, m.pos⟩) ∨
    ∃ m how body, n = relabel m how body ∧ isIdleRename how (body.annotate known) = true ∧
      message = ⟨.renameMissingTape how.source how.target, m.pos⟩ := by
  cases n with
  | embed m symbol =>
    rw [nodeIncidents]
    split
    · next ht => simp [ht]
    · next ht =>
      constructor
      · intro h
        cases List.mem_singleton.mp h
        exact .inl ⟨m, symbol, rfl, ht, rfl⟩
      · rintro (⟨_, _, ⟨⟩, -, rfl⟩ | ⟨_, _, _, ⟨⟩, -⟩)
        exact List.mem_singleton_self _
  | relabel m how body =>
    rw [nodeIncidents]
    split
    · next hidle =>
      constructor
      · intro h
        cases List.mem_singleton.mp h
        exact .inr ⟨m, how, body, rfl, hidle, rfl⟩
      · rintro (⟨_, _, ⟨⟩, -⟩ | ⟨_, _, _, ⟨⟩, -, rfl⟩)
        exact List.mem_singleton_self _
    · next hbusy => simp [hbusy]
  | table m scoping entries => cases scoping <;> simp [nodeIncidents]
  | _ => simp [nodeIncidents]

theorem collection_mem_nodeIncidents : Incident.collection ∈ g.nodeIncidents known ↔ g.isNestedTable = true := by
  unfold nodeIncidents
  split
  · split <;> simp [isNestedTable]
  · split <;> simp [isNestedTable]
  · simp [isNestedTable]
  · next hplain => cases g with
    | table m scoping entries =>
      cases scoping with
      | nested => exact absurd rfl (hplain m entries)
      | flat => simp [isNestedTable]
    | _ => simp [isNestedTable]

/-- A collection is met exactly if there is one. -/
theorem collection_mem_incidents : Incident.collection ∈ g.incidents known ↔ g.hasNested = true := by
  simp only [mem_incidents_iff, collection_mem_nodeIncidents, hasNested_iff]

/-- There is a fault exactly if a collection was met. -/
theorem Incident.outcome_eq_ok_iff {α : Type} {met : List Incident} {made a : α} :
    outcome met made = .ok a ↔ collection ∉ met ∧ made = a := by
  induction met with
  | nil => simp [outcome]
  | cons first rest ih =>
    cases first with
    | repair message => simp [outcome, ih]
    | collection => simp [outcome]

theorem Incident.repair_mem_of_mem_reported {met : List Incident} {message : Message} (h : message ∈ reported met) :
    repair message ∈ met := by
  induction met with
  | nil => cases h
  | cons first rest ih =>
    cases first with
    | repair m =>
      rcases List.mem_cons.mp h with rfl | h
      · exact List.mem_cons_self ..
      · exact List.mem_cons_of_mem _ (ih h)
    | collection => cases h

end Grammar

/-! ## Entries of an annotated table -/

namespace Inference

variable {symbols : SymbolTable Grammar} {known : Inference} {entry : String × Grammar}

theorem isRecursive_iff {name : String} : known.isRecursive name = true ↔ Symbol.key name ∈ known.recursive :=
  decide_eq_true_iff

theorem annotateEntry_of_recursive (h : Symbol.key entry.1 ∈ known.recursive) :
    known.annotateEntry entry = (entry.1, .null ⟨entry.2.pos, some ∅⟩) := by
  rw [annotateEntry, if_pos (isRecursive_iff.mpr h)]

theorem annotateEntry_of_not_recursive (h : Symbol.key entry.1 ∉ known.recursive) :
    known.annotateEntry entry = (entry.1, entry.2.annotate known) := by
  rw [annotateEntry, if_neg (mt isRecursive_iff.mp h)]

theorem tapes_of_mem_nodes_annotateEntry {n : Grammar} (h : n ∈ (known.annotateEntry entry).2.nodes) :
    n.tapes = some (n.tapesWith known.tapesOf) := by
  by_cases hr : Symbol.key entry.1 ∈ known.recursive
  · rw [annotateEntry_of_recursive hr] at h
    rw [List.mem_singleton.mp h]; rfl
  · rw [annotateEntry_of_not_recursive hr] at h
    exact Grammar.tapes_of_mem_nodes_annotate h

/-- The definition of a recursive symbol is not looked into. -/
theorem mem_entryIncidents {incident : Grammar.Incident} :
    incident ∈ known.entryIncidents entry ↔
      Symbol.key entry.1 ∉ known.recursive ∧ incident ∈ entry.2.incidents known := by
  by_cases hr : Symbol.key entry.1 ∈ known.recursive
  · simp [entryIncidents, isRecursive_iff.mpr hr, hr]
  · rw [entryIncidents, if_neg (mt isRecursive_iff.mp hr)]
    exact (and_iff_right hr).symm

theorem hasNested_annotateEntry (h : Grammar.Incident.collection ∉ known.entryIncidents entry) :
    (known.annotateEntry entry).2.hasNested = false := by
  by_cases hr : Symbol.key entry.1 ∈ known.recursive
  · rw [annotateEntry_of_recursive hr]; rfl
  · rw [annotateEntry_of_not_recursive hr, Grammar.hasNested_annotate]
    rw [mem_entryIncidents, Grammar.collection_mem_incidents] at h
    simpa [hr] using h

/-! ## Repaired tables -/

structure Repairs (symbols : SymbolTable Grammar) (known : Inference) (repair : String × Grammar → Grammar) : Prop where
  tapes : ∀ entry ∈ symbols, (repair entry).tapesWith known.tapesOf =
    if Symbol.key entry.1 ∈ known.recursive then ∅ else entry.2.tapesWith known.tapesOf
  embeds : ∀ entry ∈ symbols, ∀ m symbol, Grammar.embed m symbol ∈ (repair entry).nodes →
    Symbol.key entry.1 ∉ known.recursive ∧ symbols.contains symbol = true ∧
      ∃ m', Grammar.embed m' symbol ∈ entry.2.nodes

variable {repair : String × Grammar → Grammar}

/-- The embeds of a repaired table go down in rank, the latest settled symbols having the highest. -/
theorem Settles.descends_redefine (hs : known.Settles symbols) (hr : Repairs symbols known repair) :
    ∃ rank, (symbols.redefine repair).Descends rank := by
  obtain ⟨rank, hrank⟩ := hs.descends
  refine ⟨rank, fun a b hab hb => ?_⟩
  obtain ⟨g, m, symbol, hg, hn, rfl⟩ := hab
  obtain ⟨entry, he, hk, hget, rfl⟩ := SymbolTable.get?_redefine hg
  obtain ⟨hnot, hc, m', hm'⟩ := hr.embeds entry he m symbol hn
  have hmem := (Grammar.mem_embeds_iff (hs.flat a entry.2 hget)).mpr ⟨m', symbol, hm', rfl⟩
  exact hrank a entry.2 hget (hk ▸ hnot) _ hmem (by simpa using hc)

/-- A symbol has the tapes of its repaired definition. -/
theorem Settles.tapesOf_eq (hs : known.Settles symbols) (hr : Repairs symbols known repair) {name : String}
    {g : Grammar} (hg : (symbols.redefine repair).get? name = some g) :
    known.tapesOf name = g.tapesWith known.tapesOf := by
  obtain ⟨entry, he, hk, hget, rfl⟩ := SymbolTable.get?_redefine hg
  rw [hr.tapes entry he, hk]
  by_cases hrec : Symbol.key name ∈ known.recursive
  · rw [if_pos hrec, (hs.recursive name hrec).2]
  · rw [if_neg hrec, hs.definition name entry.2 hget hrec]

theorem Settles.tapesOf_of_unknown (hs : known.Settles symbols) {name : String} (h : symbols.contains name = false) :
    known.tapesOf name = ∅ := by
  rw [← hs.isSome_tapes?] at h
  exact Grammar.tapesOf_of_tapes?_eq_none (by simpa using h)

theorem Settles.tapesOf_of_undefined (hs : known.Settles symbols) {name : String}
    (h : (symbols.redefine repair).get? name = none) : known.tapesOf name = ∅ := by
  apply hs.tapesOf_of_unknown
  rw [← symbols.contains_redefine repair, SymbolTable.contains_eq_isSome, h]
  rfl

/-- In a repaired table, the tapes of what is settled are those of the leaf walk. -/
theorem Settles.mem_tapesWith_iff (hs : known.Settles symbols) (hr : Repairs symbols known repair) {g : Grammar}
    {tape : String} : tape ∈ g.tapesWith known.tapesOf ↔ g.Writes (symbols.redefine repair) tape := by
  obtain ⟨rank, hd⟩ := hs.descends_redefine hr
  exact Grammar.mem_tapesWith_iff hd (fun name g hg => hs.tapesOf_eq hr hg) fun name hnone =>
    hs.tapesOf_of_undefined hnone

/-- Annotation is such a repair. -/
theorem Settles.repairs_annotateEntry (hs : known.Settles symbols) :
    Repairs symbols known fun entry => (known.annotateEntry entry).2 := by
  refine ⟨fun entry _ => ?_, fun entry _ m symbol hn => ?_⟩
  · by_cases hr : Symbol.key entry.1 ∈ known.recursive
    · rw [if_pos hr, annotateEntry_of_recursive hr]; rfl
    · rw [if_neg hr, annotateEntry_of_not_recursive hr, Grammar.tapesWith_annotate]
  · by_cases hr : Symbol.key entry.1 ∈ known.recursive
    · rw [annotateEntry_of_recursive hr] at hn
      cases List.mem_singleton.mp hn
    · rw [annotateEntry_of_not_recursive hr] at hn
      obtain ⟨hsome, hm'⟩ := Grammar.embed_mem_nodes_annotate hn
      exact ⟨hr, by rw [← hs.isSome_tapes?]; exact hsome, hm'⟩

end Inference

end SheetGrammar
