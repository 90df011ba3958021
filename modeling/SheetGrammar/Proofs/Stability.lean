import SheetGrammar.Proofs.CycleReports
import SheetGrammar.Proofs.Handoff
import SheetGrammar.Proofs.RoundTrip
import SheetGrammar.Proofs.Totality

/-!
Resolution has nothing left to do on its own result, also when the result comes back from its canonical text. The first
run puts null where a symbol embeds itself or nothing, and takes out renames of tapes that are not there. What is left
then is all in order: every symbol can be settled, every embed is of a settled symbol and every rename finds its tape.

- `Settled`: what is true of a node that annotation has been over.
- `restores`: a definition that is in order and has lost its marks gets them back.
- `tapes?_of_settles`: the symbols of an annotated table are settled again with the tapes that they had.
- `inferTapes_erase`: so tape inference gives its own result again, and reports nothing.
- `resolution_render`: all of resolution does, on the grammar that is read from the canonical text.
-/

namespace SheetGrammar

namespace Grammar

variable {f : String → TapeSet} {known : Inference} {g h n : Grammar}

/-! ## Grammars without marks -/

def withoutPosition (g : Grammar) : Grammar := g.withMark ⟨none, g.tapes⟩

def withoutPositions : Grammar → Grammar := rewrite withoutPosition

theorem withoutPositions_eq (g : Grammar) : g.withoutPositions = (g.mapChildren withoutPositions).withoutPosition :=
  rewrite_eq _ g

@[simp] theorem tapes_withoutPositions (g : Grammar) : g.withoutPositions.tapes = g.tapes := by
  cases g <;> rfl

@[simp] theorem knownTapes_withoutPositions (g : Grammar) : g.withoutPositions.knownTapes = g.knownTapes := by
  rw [knownTapes, tapes_withoutPositions, knownTapes]

/-- Neither positions nor tape sets count for the tapes that a grammar has. -/
theorem tapesWith_rewrite_withMark (f : String → TapeSet) (new : Grammar → Mark) (g : Grammar) :
    (g.rewrite fun g => g.withMark (new g)).tapesWith f = g.tapesWith f := by
  induction g using inductChildren with
  | step g ih => rw [rewrite_eq, tapesWith_withMark, tapesWith_mapChildren (fun _ _ _ => rfl) ih]

theorem tapesWith_erase (f : String → TapeSet) (g : Grammar) : g.erase.tapesWith f = g.tapesWith f :=
  tapesWith_rewrite_withMark f (fun _ => {}) g

theorem hasNested_erase (g : Grammar) : g.erase.hasNested = g.hasNested :=
  hasNested_rewrite (children_withMark {}) (isNestedTable_withMark {}) g

theorem embed_mem_nodes_erase {m : Mark} {symbol : String} (h : embed m symbol ∈ g.erase.nodes) :
    ∃ m', embed m' symbol ∈ g.nodes := by
  rw [nodes_erase] at h
  obtain ⟨original, ho, he⟩ := List.mem_map.mp h
  cases original with
  | embed m' symbol' =>
    cases he
    exact ⟨m', ho⟩
  | _ => cases he

/-! ## Definitions in order -/

def isIdle : Grammar → Bool
  | relabel _ how body => isIdleRename how body
  | _ => false

structure Settled (f : String → TapeSet) (n : Grammar) : Prop where
  tapes : n.tapes = some (n.tapesWith f)
  flat : n.isNestedTable = false
  busy : n.isIdle = false

/-- Annotation leaves no idle rename. -/
theorem isIdle_annotate (known : Inference) (g : Grammar) : (g.annotate known).isIdle = false := by
  induction g with
  | embed m symbol => rw [annotate_eq, mapChildren, annotateNode]; split <;> rfl
  | relabel m how body ih =>
    rw [annotate_eq, mapChildren, annotateNode]
    split
    · exact ih
    · next hbusy => simpa [isIdle] using hbusy
  | _ => rfl

theorem isIdle_of_mem_nodes_annotate (h : n ∈ (g.annotate known).nodes) : n.isIdle = false := by
  obtain ⟨original, -, rfl⟩ := exists_of_mem_nodes_annotate h
  exact isIdle_annotate known original

theorem settled_of_mem_nodes_annotate (hflat : g.hasNested = false) (h : n ∈ (g.annotate known).nodes) :
    n.Settled known.tapesOf where
  tapes := tapes_of_mem_nodes_annotate h
  flat := hasNested_eq_false_iff.mp ((hasNested_annotate known g).trans hflat) n h
  busy := isIdle_of_mem_nodes_annotate h

/-- The definition gets back the tapes that it had before it lost its marks, and there is nothing to repair. -/
def Restores (known : Inference) (g : Grammar) : Prop :=
  g.erase.annotate known = g.withoutPositions ∧ g.erase.incidents known = []

theorem tapesWith_withoutPositions (f : String → TapeSet) (g : Grammar) :
    g.withoutPositions.tapesWith f = g.tapesWith f :=
  tapesWith_rewrite_withMark f (fun g => ⟨none, g.tapes⟩) g

/-- What is in order stays so when the children lose their positions. -/
theorem Settled.mapChildren_withoutPositions (hn : n.Settled f) : (n.mapChildren withoutPositions).Settled f where
  tapes := by
    rw [tapesWith_mapChildren (fun _ _ _ => rfl) fun child _ =>
      tapesWith_withoutPositions f child, ← hn.tapes, Grammar.tapes,
      mark_mapChildren]
    rfl
  flat := by rw [isNestedTable_mapChildren, hn.flat]
  busy := by
    have hbusy := hn.busy
    cases n with
    | relabel m how body =>
      cases how with
      | rename source target =>
        change isIdleRename (.rename source target) body.withoutPositions = false
        rwa [isIdleRename, knownTapes_withoutPositions]
      | single tape => rfl
    | _ => rfl

/-- A node that is in order is annotated with the tapes that it had, if its children have theirs. -/
theorem annotateNode_withMark (hn : n.Settled f)
    (hchildren : ∀ child ∈ n.children, child.tapes = some (child.tapesWith f))
    (hknown : ∀ m symbol, n = embed m symbol → known.tapes? symbol = some (f symbol)) :
    annotateNode known (n.withMark {}) = n.withoutPosition := by
  have hunion := unionOf_eq hchildren
  rw [withoutPosition, hn.tapes]
  cases n with
  | epsilon m => rfl
  | null m => rfl
  | literal m tape text => rfl
  | embed m symbol =>
    rw [withMark, annotateNode, hknown m symbol rfl]
    rfl
  | combine m how parts =>
    rw [tapesWith_combine]
    exact congrArg (fun tapes => combine ⟨none, some tapes⟩ how parts) hunion
  | relabel m how body =>
    have hbusy : isIdleRename how body = false := hn.busy
    rw [withMark, annotateNode, hbusy, tapesWith_relabel,
      ← knownTapes_of_tapes (hchildren body (List.mem_singleton_self body))]
    rfl
  | table m scoping entries =>
    rw [tapesWith_table]
    exact congrArg (fun tapes => table ⟨none, some tapes⟩ scoping entries) hunion

theorem nodeIncidents_erase (hg : g.Settled f) (hchildren : ∀ child ∈ g.children, child.Restores known)
    (hknown : ∀ m symbol, g = embed m symbol → known.tapes? symbol = some (f symbol)) :
    g.erase.nodeIncidents known = [] := by
  rw [erase_eq]
  cases g with
  | embed m symbol => rw [mapChildren, withMark, nodeIncidents, hknown m symbol rfl]
  | relabel m how body =>
    rw [mapChildren, withMark, nodeIncidents, (hchildren body (List.mem_singleton_self body)).1, if_neg]
    exact Bool.eq_false_iff.mp hg.mapChildren_withoutPositions.busy
  | table m scoping entries =>
    cases scoping with
    | nested => cases hg.flat
    | flat => rfl
  | _ => rfl

theorem restores (hg : ∀ n ∈ g.nodes, n.Settled f)
    (hknown : ∀ m symbol, embed m symbol ∈ g.nodes → known.tapes? symbol = some (f symbol)) : g.Restores known := by
  induction g using inductChildren with
  | step g ih =>
    have hself := hg g (self_mem_nodes g)
    have hembed : ∀ m symbol, g = embed m symbol → known.tapes? symbol = some (f symbol) := by
      rintro m symbol rfl
      exact hknown m symbol (self_mem_nodes _)
    have hchildren : ∀ child ∈ g.children, child.Restores known := fun child hc =>
      ih child hc (fun n hn => hg n (mem_nodes_of_mem_children hc hn))
        fun m symbol hs => hknown m symbol (mem_nodes_of_mem_children hc hs)
    refine ⟨?_, ?_⟩
    · rw [erase_eq, annotate_eq, mapChildren_withMark, mapChildren_mapChildren,
        mapChildren_congr fun child hc => (hchildren child hc).1, withoutPositions_eq]
      refine annotateNode_withMark hself.mapChildren_withoutPositions ?_ ?_
      · rw [children_mapChildren]
        refine List.forall_mem_map.mpr fun child hc => ?_
        rw [tapes_withoutPositions, tapesWith_withoutPositions]
        exact (hg child (mem_nodes_of_mem_children hc (self_mem_nodes child))).tapes
      · intro m symbol he
        cases g with
        | embed m' symbol' =>
          cases he
          exact hembed m symbol rfl
        | _ => cases he
    · rw [incidents_eq, nodeIncidents_erase hself hchildren hembed, List.append_nil, List.flatMap_eq_nil_iff, erase_eq,
        children_withMark, children_mapChildren]
      exact List.forall_mem_map.mpr fun child hc => (hchildren child hc).2

end Grammar

/-! ## Symbols in order -/

/-- A move that finds no recursive symbol reports nothing. -/
theorem Walk.Moves.messages_of_recursive {symbols : SymbolTable Grammar} {walk next : Walk}
    (h : walk.Moves symbols next) (hr : next.known.recursive = []) :
    next.messages = walk.messages ∧ walk.known.recursive = [] := by
  cases h with
  | pass _ => exact ⟨rfl, hr⟩
  | @close known key target pending outer messages _ _ =>
    rw [Inference.closeCycle_eq, List.append_eq_nil_iff, List.reverse_eq_nil_iff] at hr
    rw [Inference.closeCycle_eq, hr.1]
    exact ⟨List.append_nil _, hr.2⟩
  | enter _ _ _ => exact ⟨rfl, by simpa using hr⟩
  | settle _ _ => exact ⟨rfl, hr⟩

theorem Progress.Reached.messages_of_recursive {symbols : SymbolTable Grammar} {p : Progress} (h : Reached symbols p)
    (hr : p.walk.known.recursive = []) : p.reported ++ p.walk.messages = [] := by
  induction h with
  | refl => rfl
  | @tail p q _ hm ih =>
    cases hm with
    | walk hw =>
      obtain ⟨hmessages, hbefore⟩ := hw.messages_of_recursive hr
      rw [← ih hbefore, hmessages]
    | start _ _ => simpa [Walk.begun] using ih (by simpa [Walk.begun] using hr)
    | skip _ => exact ih hr

namespace Inference

variable {m : Mark} {symbols entries : SymbolTable Grammar} {run : Inferred Grammar} {rank : String → Nat}

/-- A table whose embeds go down in rank has no recursive symbols. -/
theorem Annotates.recursive_eq_nil (ha : Annotates m symbols run) (hflat : ∀ entry ∈ symbols, entry.2.hasNested = false)
    (hd : symbols.Descends rank) : run.known.recursive = [] := by
  rw [List.eq_nil_iff_forall_not_mem]
  intro key hkey
  have hcanonical : Symbol.key key = key := ha.settles.canonical key hkey
  have hcontains := (ha.settles.recursive key (hcanonical.symm ▸ hkey)).1
  obtain ⟨before, -, hiff⟩ := ha.mem_recursive_iff hflat hcontains
  have hcycle := hiff.mp (hcanonical.symm ▸ hkey)
  exact hd.acyclic _ (Relation.TransGen.mono (fun _ _ h => h.1) _ _ hcycle)

theorem annotate_table_messages {g : Grammar} (ok : (annotate {} (.table m .flat symbols)).result = .ok g)
    (hrec : (annotate {} (.table m .flat symbols)).known.recursive = [])
    (hmet : ∀ entry ∈ symbols, entry.2.incidents (annotate {} (.table m .flat symbols)).known = []) :
    (annotate {} (.table m .flat symbols)).messages = [] := by
  unfold annotate at ok hrec hmet ⊢
  cases hset : (settleTable symbols {}).result with
  | error fault => simp [hset] at ok
  | ok done =>
    simp only [hset] at hrec hmet ⊢
    obtain ⟨reported, messages, hreached, hmessages⟩ := settleTable_reached hset
    have hincidents : symbols.flatMap (settleTable symbols {}).known.entryIncidents = [] := by
      rw [List.flatMap_eq_nil_iff]
      intro entry he
      rw [entryIncidents, hmet entry he, ite_self]
    rw [← hmessages, hreached.messages_of_recursive hrec, hincidents]
    rfl

def unmarked (entries : SymbolTable Grammar) : SymbolTable Grammar := entries.redefine fun entry => entry.2.erase

theorem descends_unmarked (hd : entries.Descends rank) : (unmarked entries).Descends rank := by
  intro a b hab hb
  obtain ⟨g, m, symbol, hg, hn, rfl⟩ := hab
  obtain ⟨entry, -, -, hget, rfl⟩ := SymbolTable.get?_redefine hg
  obtain ⟨m', hn'⟩ := Grammar.embed_mem_nodes_erase hn
  rw [unmarked, SymbolTable.contains_redefine] at hb
  exact hd a _ ⟨entry.2, m', symbol, hget, hn', rfl⟩ hb

theorem hasNested_unmarked (hflat : ∀ entry ∈ entries, entry.2.hasNested = false) :
    ∀ entry ∈ unmarked entries, entry.2.hasNested = false := by
  intro entry he
  obtain ⟨original, ho, rfl⟩ := List.mem_map.mp he
  exact (Grammar.hasNested_erase original.2).trans (hflat original ho)

/-- Without recursive symbols every entry is annotated as it stands. -/
theorem annotatedEntries_unmarked {known : Inference} (hrec : known.recursive = [])
    (h : ∀ entry ∈ entries, entry.2.Restores known) :
    known.annotatedEntries (unmarked entries) = entries.redefine fun entry => entry.2.withoutPositions := by
  simp only [annotatedEntries, unmarked, SymbolTable.redefine, List.map_map]
  refine List.map_congr_left fun entry he => ?_
  rw [Function.comp_apply, annotateEntry_of_not_recursive (by simp [hrec]), (h entry he).1]

/-- There is one way to give every symbol the tapes of its definition, so a symbol that is settled again has the tapes
that it had. -/
theorem tapes?_of_settles {known : Inference} {f : String → TapeSet} (hs : known.Settles (unmarked entries))
    (hrec : known.recursive = []) (hd : entries.Descends rank)
    (hdef : ∀ name g, entries.get? name = some g → f name = g.tapesWith f)
    (hnone : ∀ name, entries.get? name = none → f name = ∅) {symbol : String} (hc : entries.contains symbol = true) :
    known.tapes? symbol = some (f symbol) := by
  have hdef' (name : String) (g : Grammar) (hg : entries.get? name = some g) :
      known.tapesOf name = g.tapesWith known.tapesOf := by
    have hget : (unmarked entries).get? name = some g.erase := by
      obtain ⟨entry, he, rfl⟩ := Option.map_eq_some_iff.mp hg
      rw [unmarked, SymbolTable.get?, SymbolTable.entry?_redefine, he]
      rfl
    rw [← Grammar.tapesWith_erase]
    exact hs.definition name g.erase hget (by simp [hrec])
  have hnone' (name : String) (hn : entries.get? name = none) : known.tapesOf name = ∅ := by
    apply hs.tapesOf_of_unknown
    rw [unmarked, SymbolTable.contains_redefine, SymbolTable.contains_eq_isSome, hn]
    rfl
  have hsame : known.tapesOf symbol = f symbol := by
    refine SortedSet.ext fun tape => ?_
    have hnew : tape ∈ (Grammar.embed {} symbol).tapesWith known.tapesOf ↔ _ :=
      Grammar.mem_tapesWith_iff hd hdef' hnone'
    have hold : tape ∈ (Grammar.embed {} symbol).tapesWith f ↔ _ := Grammar.mem_tapesWith_iff hd hdef hnone
    exact hnew.trans hold.symm
  have hsome : (known.tapes? symbol).isSome = true := by
    rw [hs.isSome_tapes?, unmarked, SymbolTable.contains_redefine]
    exact hc
  obtain ⟨tapes, ht⟩ := Option.isSome_iff_exists.mp hsome
  rw [ht, ← hsame, Grammar.tapesOf_of_tapes? ht]

/-- Tape inference on a table without marks gives back the table, if each definition gets back its own tapes. -/
theorem inferTapes_unmarked (hflat : ∀ entry ∈ entries, entry.2.hasNested = false) (hd : entries.Descends rank)
    (htapes : m.tapes = some (Grammar.unionOf (entries.map (·.2))))
    (hrestores : ∀ known : Inference, known.Settles (unmarked entries) → known.recursive = [] →
      ∀ entry ∈ entries, entry.2.Restores known) :
    Grammar.inferTapes (.table {} .flat (unmarked entries)) =
      (.ok (Grammar.table m .flat entries).withoutPositions, []) := by
  obtain ⟨g, ok⟩ := annotate_table_ok (m := {}) (hasNested_unmarked hflat)
  have ha := annotate_table ok
  have hrec := ha.recursive_eq_nil (hasNested_unmarked hflat) (descends_unmarked hd)
  have hentry := hrestores _ ha.settles hrec
  have hincidents :
      ∀ entry ∈ unmarked entries, entry.2.incidents (annotate {} (.table {} .flat (unmarked entries))).known = [] :=
    List.forall_mem_map.mpr fun entry he => (hentry entry he).2
  refine Prod.ext ?_ (annotate_table_messages ok hrec hincidents)
  have hunion : Grammar.unionOf ((entries.redefine fun entry => entry.2.withoutPositions).map (·.2)) =
      Grammar.unionOf (entries.map (·.2)) := by
    simp [SymbolTable.redefine, Grammar.unionOf, Function.comp_def]
  rw [Grammar.withoutPositions_eq]
  refine ha.result.trans ?_
  rw [annotatedEntries_unmarked hrec hentry, hunion]
  exact congrArg (fun tapes => Except.ok (Grammar.table ⟨none, tapes⟩ .flat _)) htapes.symm

end Inference

namespace Grammar

variable {g h n : Grammar}

/-! ## Tape inference on its own result -/

/-- Every node of an annotated table is in order. -/
theorem settled_of_mem_nodes_annotatedEntries {m : Mark} {symbols : SymbolTable Grammar} {run : Inferred Grammar}
    (ha : Inference.Annotates m symbols run) {entry : String × Grammar}
    (he : entry ∈ run.known.annotatedEntries symbols) (hn : n ∈ entry.2.nodes) : n.Settled run.known.tapesOf := by
  have hflat := hasNested_eq_false_iff.mp (ha.flat entry he) n hn
  obtain ⟨original, -, rfl⟩ := List.mem_map.mp he
  refine ⟨Inference.tapes_of_mem_nodes_annotateEntry hn, hflat, ?_⟩
  have hentry : n ∈ (run.known.annotateEntry original).2.nodes := hn
  by_cases hr : Symbol.key original.1 ∈ run.known.recursive
  · rw [Inference.annotateEntry_of_recursive hr] at hentry
    rw [List.mem_singleton.mp hentry]
    rfl
  · rw [Inference.annotateEntry_of_not_recursive hr] at hentry
    exact isIdle_of_mem_nodes_annotate hentry

theorem inferTapes_erase_table {m m' : Mark} {symbols : SymbolTable Grammar} {run : Inferred Grammar}
    (ha : Inference.Annotates m symbols run)
    (htapes : m'.tapes = some (unionOf ((run.known.annotatedEntries symbols).map (·.2)))) :
    (table m' .flat (run.known.annotatedEntries symbols)).erase.inferTapes =
      (.ok (table m' .flat (run.known.annotatedEntries symbols)).withoutPositions, []) := by
  obtain ⟨rank, hd⟩ := ha.settles.descends_redefine ha.settles.repairs_annotateEntry
  rw [erase_eq]
  refine Inference.inferTapes_unmarked ha.flat hd htapes ?_
  intro known hs hrec entry he
  refine restores (fun n hn => settled_of_mem_nodes_annotatedEntries ha he hn) ?_
  intro _ symbol hn
  exact Inference.tapes?_of_settles hs hrec hd
    (fun name g hg => ha.settles.tapesOf_eq ha.settles.repairs_annotateEntry hg)
    (fun name hnone => ha.settles.tapesOf_of_undefined hnone) (ha.closed he hn)

/-- A grammar that is no table is annotated with nothing settled. -/
theorem inferTapes_eq (hg : ∀ m entries, g ≠ table m .flat entries) :
    g.inferTapes = (Incident.outcome (g.incidents {}) (g.annotate {}), Incident.reported (g.incidents {})) := by
  unfold inferTapes Inference.annotate
  split
  · next m entries => exact absurd rfl (hg m entries)
  · rfl

/-- What tape inference makes: of a flat table the annotated one, of anything else what is left of it with nothing
settled. -/
theorem inferTapes_cases (ok : g.inferTapes.1 = .ok h) :
    (∃ m symbols run, g = table m .flat symbols ∧ Inference.Annotates m symbols run ∧
      h = table ⟨m.pos, some (unionOf ((run.known.annotatedEntries symbols).map (·.2)))⟩ .flat
        (run.known.annotatedEntries symbols)) ∨
    (g.hasNested = false ∧ h = g.annotate {}) := by
  by_cases htable : ∃ m symbols, g = table m .flat symbols
  · obtain ⟨m, symbols, rfl⟩ := htable
    have ha := Inference.annotate_table ok
    exact .inl ⟨m, symbols, _, rfl, ha, Except.ok.inj (ok.symm.trans ha.result)⟩
  · rw [inferTapes_eq fun m entries h => htable ⟨m, entries, h⟩] at ok
    obtain ⟨hclear, rfl⟩ := Incident.outcome_eq_ok_iff.mp ok
    rw [collection_mem_incidents, Bool.not_eq_true] at hclear
    exact .inr ⟨hclear, rfl⟩

/-- Outside a table nothing is settled, so no embed is left. -/
theorem embed_notMem_nodes_annotate {m : Mark} {symbol : String} : embed m symbol ∉ (g.annotate {}).nodes := by
  intro hn
  cases (embed_mem_nodes_annotate hn).1

/-- A result without embeds is stable. It can be a table even if what it was made from is none: a rename that is taken
out leaves its body. -/
theorem inferTapes_erase_of_settled {f : String → TapeSet} (hh : ∀ n ∈ h.nodes, n.Settled f)
    (hembeds : ∀ m symbol, embed m symbol ∉ h.nodes) : h.erase.inferTapes = (.ok h.withoutPositions, []) := by
  by_cases htable : ∃ m entries, h = table m .flat entries
  · obtain ⟨m, entries, rfl⟩ := htable
    have hnodes (entry : String × Grammar) (he : entry ∈ entries) (n : Grammar) (hn : n ∈ entry.2.nodes) :
        n ∈ (table m .flat entries).nodes :=
      mem_nodes_table.mpr (.inr ⟨entry, he, hn⟩)
    have hflat : ∀ entry ∈ entries, entry.2.hasNested = false := by
      intro entry he
      exact hasNested_eq_false_iff.mpr fun n hn => (hh n (hnodes entry he n hn)).flat
    have hd : SymbolTable.Descends entries fun _ => 0 := by
      rintro a b ⟨g, m', symbol, hg, hn, -⟩ -
      obtain ⟨entry, he, -, rfl⟩ := SymbolTable.mem_of_get? hg
      exact absurd (hnodes entry he _ hn) (hembeds m' symbol)
    have htapes : m.tapes = some (unionOf (entries.map (·.2))) := by
      rw [unionOf_eq
        (List.forall_mem_map.mpr fun entry he => (hh entry.2 (hnodes entry he _ (self_mem_nodes _))).tapes),
        ← tapesWith_table]
      exact (hh _ (self_mem_nodes _)).tapes
    rw [erase_eq]
    refine Inference.inferTapes_unmarked hflat hd htapes ?_
    intro known _ _ entry he
    exact restores (fun n hn => hh n (hnodes entry he n hn)) fun m' s hn => absurd (hnodes entry he _ hn) (hembeds m' s)
  · have hnot (m : Mark) (entries : List (String × Grammar)) : h.erase ≠ table m .flat entries := by
      intro he
      cases h with
      | table m' scoping entries' =>
        rw [erase_eq] at he
        injection he with _ hscoping
        exact htable ⟨m', entries', by rw [hscoping]⟩
      | _ => cases he
    obtain ⟨hannotate, hmet⟩ : h.Restores {} := restores hh fun m s hn => absurd hn (hembeds m s)
    rw [inferTapes_eq hnot, hannotate, hmet]
    rfl

/-- Tape inference on its own result without its marks gives the result again, and reports nothing. -/
theorem inferTapes_erase (ok : g.inferTapes.1 = .ok h) : h.erase.inferTapes = (.ok h.withoutPositions, []) := by
  rcases inferTapes_cases ok with ⟨m, symbols, run, -, ha, rfl⟩ | ⟨hflat, rfl⟩
  · exact inferTapes_erase_table ha rfl
  · exact inferTapes_erase_of_settled (fun n hn => settled_of_mem_nodes_annotate hflat hn)
      fun m symbol => embed_notMem_nodes_annotate

/-! ## The stages before it -/

/-- Without collections there is no default to add. -/
theorem assignDefaults_erase (h : g.hasNested = false) : g.erase.assignDefaults = g.erase := by
  induction g using inductChildren with
  | step g ih =>
    have hplain : ((g.mapChildren erase).withMark {}).isNestedTable = false := by
      rw [isNestedTable_withMark, isNestedTable_mapChildren, isNestedTable_of_hasNested_eq_false h]
    rw [erase_eq, assignDefaults_eq, mapChildren_withMark, mapChildren_mapChildren,
      mapChildren_congr fun child hc =>
        ih child hc (hasNested_eq_false_of_mem_children h hc), assignDefault_of_plain hplain]
    cases g <;> rfl

/-- Without embeds there is nothing to rewrite. -/
theorem resolve_erase (refer : String → Option String) (h : ∀ m symbol, embed m symbol ∉ g.nodes) :
    g.erase.resolve refer = g.erase ∧ g.erase.unresolved refer = [] := by
  refine ⟨?_, ?_⟩
  · induction g using inductChildren with
    | step g ih =>
      rw [erase_eq, resolve_eq, mapChildren_withMark, mapChildren_mapChildren,
        mapChildren_congr fun child hc => ih child hc fun m s hs => h m s (mem_nodes_of_mem_children hc hs)]
      cases g with
      | embed m symbol => exact absurd (self_mem_nodes _) (h m symbol)
      | _ => rfl
  · rw [List.eq_nil_iff_forall_not_mem]
    intro message hm
    obtain ⟨m, symbol, hn, -⟩ := mem_unresolved.mp hm
    obtain ⟨m', hn⟩ := embed_mem_nodes_erase hn
    exact h m' symbol hn

/-- What tape inference makes is a flat table or has no embeds, and has no collection in it. -/
theorem flat_of_inferTapes (ok : g.inferTapes.1 = .ok h) :
    h.hasNested = false ∧ ((∃ m entries, h = table m .flat entries) ∨ ∀ m symbol, embed m symbol ∉ h.nodes) := by
  rcases inferTapes_cases ok with ⟨m, symbols, run, -, ha, rfl⟩ | ⟨hflat, rfl⟩
  · exact ⟨hasNested_eq_false_iff.mpr fun n hn => isNestedTable_of_mem_nodes_flat ha.flat hn, .inl ⟨_, _, rfl⟩⟩
  · exact ⟨(hasNested_annotate {} g).trans hflat, .inr fun m symbol => embed_notMem_nodes_annotate⟩

theorem qualifyNames_erase (hflat : h.hasNested = false)
    (hembeds : (∃ m entries, h = table m .flat entries) ∨ ∀ m symbol, embed m symbol ∉ h.nodes) :
    h.erase.qualifyNames = (h.erase, []) := by
  cases h with
  | table m scoping entries =>
    cases scoping with
    | nested => cases hflat
    | flat => rfl
  | _ =>
    rcases hembeds with ⟨m, entries, he⟩ | hembeds
    · cases he
    · obtain ⟨hresolve, hmessages⟩ := resolve_erase (fun _ => none) hembeds
      exact Prod.ext hresolve hmessages

/-- All of resolution on its own result without its marks gives the result again, and adds nothing to the log. -/
theorem resolution_erase {log : Log} (ok : (resolution g log).1 = .ok h) (log' : Log) :
    resolution h.erase log' = (.ok h.withoutPositions, log') := by
  obtain ⟨hflat, hembeds⟩ := flat_of_inferTapes ok
  have hinfer := inferTapes_erase ok
  have hresolution : resolution h.erase log' =
      (h.erase.assignDefaults.qualifyNames.1.inferTapes.1,
        (log'.reportAll h.erase.assignDefaults.qualifyNames.2).reportAll
          h.erase.assignDefaults.qualifyNames.1.inferTapes.2) := rfl
  rw [hresolution, assignDefaults_erase hflat, qualifyNames_erase hflat hembeds, hinfer]
  rfl

/-! ## Names told apart -/

theorem wellFormed_defaultOf (pos : Option Position) (entries : List (String × Grammar)) :
    (defaultOf pos entries).WellFormed := by
  rw [defaultOf, wellFormed_combine, List.forall_mem_map]
  exact fun entry _ => wellFormed_embed _ _

theorem wellFormed_withDefault (pos : Option Position) {entries : SymbolTable Grammar} (h : entries.WellFormed) :
    (withDefault pos entries).WellFormed := by
  rw [withDefault]
  split
  · exact h
  · next hnew => exact SymbolTable.wellFormed_concat.mpr ⟨h, by simpa using hnew⟩

theorem WellFormed.assignDefault (h : g.WellFormed) : (assignDefault g).WellFormed := by
  unfold Grammar.assignDefault
  split
  · next m entries =>
    obtain ⟨hkeys, hentries⟩ := wellFormed_table.mp h
    refine wellFormed_table.mpr ⟨wellFormed_withDefault m.pos hkeys, fun entry he => ?_⟩
    rcases mem_withDefault he with he | rfl
    · exact hentries entry he
    · exact wellFormed_defaultOf _ _
  · exact wellFormed_withMark.mpr h

theorem WellFormed.assignDefaults (h : g.WellFormed) : g.assignDefaults.WellFormed := h.rewrite fun _ => assignDefault

theorem WellFormed.resolve (refer : String → Option String) (h : g.WellFormed) : (g.resolve refer).WellFormed := by
  refine h.rewrite fun n hn => ?_
  unfold resolveEmbed
  split
  · split
    · exact wellFormed_embed _ _
    · exact wellFormed_null _
  · exact wellFormed_withMark.mpr hn

theorem WellFormed.annotate (known : Inference) (h : g.WellFormed) : (g.annotate known).WellFormed := by
  refine h.rewrite fun n hn => ?_
  unfold annotateNode
  split
  · exact wellFormed_literal _ _ _
  · split
    · exact wellFormed_embed _ _
    · exact wellFormed_null _
  · split
    · exact wellFormed_relabel.mp hn
    · exact wellFormed_relabel.mpr (wellFormed_relabel.mp hn)
  · exact wellFormed_withMark.mpr hn

/-- What flattening takes out of a collection tells names apart where the collection does. -/
theorem WellFormed.definition (h : g.WellFormed) (scope : List String) (name : String) {d : Definition}
    (hd : d ∈ definitionsOf scope name g) : d.body.WellFormed := by
  induction g generalizing scope name with
  | table m scoping entries ih =>
    cases scoping with
    | nested =>
      rw [definitionsOf, definitions_eq] at hd
      obtain ⟨entry, he, hd⟩ := List.mem_flatMap.mp hd
      exact ih entry he ((wellFormed_table.mp h).2 entry he) _ _ hd
    | flat =>
      rw [List.mem_singleton.mp hd]
      exact h
  | _ =>
    rw [List.mem_singleton.mp hd]
    exact h

theorem WellFormed.qualifyNames (h : g.WellFormed) : g.qualifyNames.1.WellFormed := by
  cases g with
  | table m scoping entries =>
    obtain ⟨hkeys, hentries⟩ := wellFormed_table.mp h
    cases scoping with
    | flat => exact wellFormed_table.mpr ⟨hkeys, hentries⟩
    | nested =>
      refine wellFormed_table.mpr ⟨?_, ?_⟩
      · have hkept := (Definition.nodup_partition [] (definitions [] entries)).1
        rw [SymbolTable.WellFormed, SymbolTable.keys, List.map_map]
        exact hkept
      · intro entry he
        obtain ⟨d, hd, rfl⟩ := List.mem_map.mp he
        have hmem : d ∈ definitions [] entries := Definition.mem_of_mem_partition hd
        rw [definitions_eq] at hmem
        obtain ⟨member, hm, hd⟩ := List.mem_flatMap.mp hmem
        exact ((hentries member hm).definition [] member.1 hd).resolve _
  | _ => exact h.resolve fun _ => none

theorem WellFormed.inferTapes (h : g.WellFormed) {made : Grammar} (ok : g.inferTapes.1 = .ok made) :
    made.WellFormed := by
  rcases inferTapes_cases ok with ⟨m, symbols, run, rfl, -, rfl⟩ | ⟨-, rfl⟩
  · obtain ⟨hkeys, hentries⟩ := wellFormed_table.mp h
    refine wellFormed_table.mpr ⟨SymbolTable.wellFormed_map.mpr hkeys, ?_⟩
    intro entry he
    obtain ⟨original, ho, rfl⟩ := List.mem_map.mp he
    show (run.known.annotateEntry original).2.WellFormed
    rw [Inference.annotateEntry]
    split
    · exact wellFormed_null _
    · exact (hentries original ho).annotate _
  · exact h.annotate {}

/-- Resolution is at rest on its own result. The result, written and read again, comes back with nothing reported and
with the same tapes on every node. -/
theorem resolution_render (g : Grammar) (distinct : g.WellFormed) (log : Log) (made : Grammar)
    (ok : (resolution g log).1 = .ok made) :
    ∃ read, parse made.render = .ok read ∧ ∀ log', resolution read log' = (.ok made.withoutPositions, log') := by
  have hmade : made.WellFormed := distinct.assignDefaults.qualifyNames.inferTapes ok
  obtain ⟨d, htokens, hvalue, hd⟩ := Canonical.tokens_render hmade
  refine ⟨made.erase, ?_, resolution_erase ok⟩
  rw [← hvalue]
  exact Canonical.parse_of_tokens htokens hd

/-- With a collection in a collection, an embed of nothing, two symbols that embed each other and a rename of a tape
that is not there. -/
theorem resolution_render_repaired :
    let g : Grammar := .table {} .nested
      [("Verbs", .table {} .nested
        [("root", .literal {} "text" "run"), ("a", .embed {} "b"), ("B", .embed {} "verbs.A")]),
        ("some", .relabel {} (.rename "text" "gloss") (.embed {} "VERBS")), ("odd", .embed {} "nowhere"),
        ("idle", .relabel {} (.rename "none" "gloss") (.literal {} "text" "a b"))]
    g.WellFormed ∧ ∃ made, (resolution g {}).1 = .ok made ∧
      ∃ read, parse made.render = .ok read ∧ ∀ log', resolution read log' = (.ok made.withoutPositions, log') := by
  intro g
  have distinct : g.WellFormed := by decide +kernel
  have hok : (resolution g {}).1.isOk = true := by decide +kernel
  cases hmade : (resolution g {}).1 with
  | error fault =>
    rw [hmade] at hok
    cases hok
  | ok made => exact ⟨distinct, made, rfl, resolution_render g distinct {} made hmade⟩

end Grammar

end SheetGrammar
