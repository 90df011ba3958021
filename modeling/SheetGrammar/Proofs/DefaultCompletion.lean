import SheetGrammar.Proofs.DottedPaths
import SheetGrammar.Proofs.Stability

/-!
Defaults, as a change of the tree. Collections stand anywhere in a grammar, inside each other and under nodes of every
other kind, and each is looked at after its members. What a default embeds depends on the members as they are then;
whether one is added does not, since members keep their names. So the defaults that a grammar gets can be told from the
grammar as it was.

- `Completed`: a grammar and the same with its defaults, node by node.
- `completed_iff`: there is one such grammar, and assigning defaults makes it.
- `assignDefaults_assignDefaults`: there is nothing left to add.
- `defaultsStage_completes`: the stage does so, and is silent.
-/

namespace SheetGrammar.Grammar

variable {g made : Grammar} {entries : List (String × Grammar)}

/-! ## Grammars with their defaults -/

structure Processed where
  name : String
  before : Grammar
  after : Grammar

namespace Processed

def old (entry : Processed) : String × Grammar := (entry.name, entry.before)

def new (entry : Processed) : String × Grammar := (entry.name, entry.after)

/-- Whether a collection has a default shows in the names of its members, before as after. -/
theorem contains_new_allName {members : List Processed} :
    SymbolTable.contains (members.map new) Symbol.allName = true ↔
      ∃ member ∈ members, Symbol.key member.name = Symbol.allName := by
  rw [SymbolTable.contains_iff, Symbol.key_allName]
  simp [new]

theorem map_old {entries : List Processed} (h : ∀ entry ∈ entries, entry.after = entry.before.assignDefaults) :
    (entries.map old).map (fun entry => (entry.1, entry.2.assignDefaults)) = entries.map new := by
  rw [List.map_map]
  refine List.map_congr_left fun entry he => ?_
  rw [new, h entry he]
  rfl

end Processed

/-- A grammar and what it becomes. All nodes lose their tape sets and keep their positions, names and order; a
collection that has no member of the key `.all` gets one, after all others. -/
inductive Completed : Grammar → Grammar → Prop
  | epsilon (m : Mark) : Completed (.epsilon m) (.epsilon (.ofPos m.pos))
  | null (m : Mark) : Completed (.null m) (.null (.ofPos m.pos))
  | literal (m : Mark) (tape text : String) : Completed (.literal m tape text) (.literal (.ofPos m.pos) tape text)
  | embed (m : Mark) (symbol : String) : Completed (.embed m symbol) (.embed (.ofPos m.pos) symbol)
  | combine (m : Mark) (how : Combination) {parts : List (Grammar × Grammar)} :
      (∀ part ∈ parts, Completed part.1 part.2) →
      Completed (.combine m how (parts.map (·.1))) (.combine (.ofPos m.pos) how (parts.map (·.2)))
  | relabel (m : Mark) (how : Relabelling) {body made : Grammar} : Completed body made →
      Completed (.relabel m how body) (.relabel (.ofPos m.pos) how made)
  | flat (m : Mark) {entries : List Processed} : (∀ entry ∈ entries, Completed entry.before entry.after) →
      Completed (.table m .flat (entries.map (·.old))) (.table (.ofPos m.pos) .flat (entries.map (·.new)))
  /-- A default that is there stays where it is. -/
  | kept (m : Mark) {members : List Processed} : (∀ member ∈ members, Completed member.before member.after) →
      (∃ member ∈ members, Symbol.key member.name = Symbol.allName) →
      Completed (.table m .nested (members.map (·.old))) (.table (.ofPos m.pos) .nested (members.map (·.new)))
  | gained (m : Mark) {members : List Processed} : (∀ member ∈ members, Completed member.before member.after) →
      (∀ member ∈ members, Symbol.key member.name ≠ Symbol.allName) →
      Completed (.table m .nested (members.map (·.old)))
        (.table (.ofPos m.pos) .nested
          (members.map (·.new) ++ [(Symbol.allName, defaultOf m.pos (members.map (·.new)))]))

theorem completed_assignDefaults (g : Grammar) : g.Completed g.assignDefaults := by
  induction g with
  | epsilon m => exact .epsilon m
  | null m => exact .null m
  | literal m tape text => exact .literal m tape text
  | embed m symbol => exact .embed m symbol
  | combine m how parts ih =>
    have hparts : ∀ part ∈ parts.map (fun g => (g, g.assignDefaults)), Completed part.1 part.2 := by
      simpa using ih
    rw [assignDefaults_eq]
    simpa [mapChildren, assignDefault, withoutTapes, withMark, pos, mark, Function.comp_def]
      using Completed.combine m how hparts
  | relabel m how body ih => exact .relabel m how ih
  | table m scoping entries ih =>
    let members : List Processed := entries.map fun entry => ⟨entry.1, entry.2, entry.2.assignDefaults⟩
    have hmembers : ∀ member ∈ members, Completed member.before member.after := by
      intro member hmember
      obtain ⟨entry, he, rfl⟩ := List.mem_map.mp hmember
      exact ih entry he
    have hold : members.map (·.old) = entries := by simp [members, Processed.old, Function.comp_def]
    have hnew : entries.map (fun entry => (entry.1, entry.2.assignDefaults)) = members.map (·.new) := by
      simp [members, Processed.new]
    rw [assignDefaults_eq, mapChildren, hnew, ← hold]
    cases scoping with
    | flat => exact .flat m hmembers
    | nested =>
      rw [assignDefault, withDefault]
      split
      · next hall => exact .kept m hmembers (Processed.contains_new_allName.mp hall)
      · next hall =>
        refine .gained m hmembers fun member hmember hkey => hall ?_
        exact Processed.contains_new_allName.mpr ⟨member, hmember, hkey⟩

theorem Completed.eq_assignDefaults (h : g.Completed made) : made = g.assignDefaults := by
  induction h with
  | epsilon m => rfl
  | null m => rfl
  | literal m tape text => rfl
  | embed m symbol => rfl
  | combine m how _ ih =>
    rw [assignDefaults_eq, mapChildren, List.map_map, List.map_congr_left ih]
    rfl
  | relabel m how _ ih =>
    rw [ih]
    rfl
  | flat m _ ih =>
    rw [assignDefaults_eq, mapChildren, Processed.map_old ih]
    rfl
  | kept m _ hall ih =>
    rw [assignDefaults_eq, mapChildren, Processed.map_old ih, assignDefault, withDefault,
      if_pos (Processed.contains_new_allName.mpr hall)]
  | @gained m members _ hnone ih =>
    have hlacks : ¬ SymbolTable.contains (members.map (·.new)) Symbol.allName = true := by
      rw [Processed.contains_new_allName]
      rintro ⟨member, hmember, hkey⟩
      exact hnone member hmember hkey
    rw [assignDefaults_eq, mapChildren, Processed.map_old ih, assignDefault, withDefault, if_neg hlacks]

/-- The grammar with its defaults is one, and it is made by assigning them. -/
theorem completed_iff : g.Completed made ↔ g.assignDefaults = made :=
  ⟨fun h => h.eq_assignDefaults.symm, fun h => h ▸ completed_assignDefaults g⟩

/-! ## A second time -/

/-- A default has no collections in it, so it stays as it is. -/
theorem assignDefaults_defaultOf (pos : Option Position) (entries : List (String × Grammar)) :
    (defaultOf pos entries).assignDefaults = defaultOf pos entries := by
  rw [defaultOf, assignDefaults_eq, mapChildren, List.map_map]
  rfl

theorem contains_withDefault (pos : Option Position) (entries : SymbolTable Grammar) :
    (withDefault pos entries).contains Symbol.allName = true := by
  unfold withDefault
  split
  · assumption
  · exact SymbolTable.contains_iff.mpr ⟨_, List.mem_append_right _ (List.mem_singleton.mpr rfl), rfl⟩

/-- A collection that has its default, and whose members have theirs, gets no other. -/
theorem assignDefaults_of_children (hchildren : ∀ child ∈ g.children, child.assignDefaults = child)
    (hall : ∀ m entries, g = table m .nested entries → SymbolTable.contains entries Symbol.allName = true) :
    g.assignDefaults = g.withoutTapes := by
  have hsame : g.mapChildren assignDefaults = g := by
    rw [mapChildren_congr hchildren]
    exact mapChildren_id g
  rw [assignDefaults_eq, hsame]
  unfold assignDefault
  split
  · next m entries =>
    rw [withDefault, if_pos (hall m entries rfl)]
    rfl
  · rfl

/-- Every collection has a default by then, and defaults have no collections in them. -/
theorem assignDefaults_assignDefaults (g : Grammar) : g.assignDefaults.assignDefaults = g.assignDefaults := by
  induction g using inductChildren with
  | step g ih =>
    have hmapped : ∀ child ∈ (g.mapChildren assignDefaults).children, child.assignDefaults = child := by
      rw [children_mapChildren]
      exact List.forall_mem_map.mpr ih
    rw [assignDefaults_eq g]
    generalize g.mapChildren assignDefaults = made at hmapped
    unfold assignDefault
    split
    · next m entries =>
      refine assignDefaults_of_children (fun child hc => ?_) ?_
      · obtain ⟨entry, he, rfl⟩ := List.mem_map.mp hc
        rcases mem_withDefault he with he | rfl
        · exact hmapped entry.2 (List.mem_map_of_mem he)
        · exact assignDefaults_defaultOf _ _
      · rintro _ _ ⟨⟩
        exact contains_withDefault _ _
    · next hplain =>
      rw [withoutTapes, assignDefaults_of_children]
      · cases made <;> rfl
      · rwa [children_withMark]
      · intro m entries he
        cases made with
        | table m' scoping entries' => cases he; exact absurd rfl (hplain m' entries)
        | _ => cases he

/-- Assigning defaults changes a grammar without its tape sets in one way only: each collection that had no member of
the key `.all` has one, and it is the last. It makes no two members of one name, has nothing to do a second time, and
reports nothing. -/
theorem defaultsStage_completes (g : Grammar) (log : Log) :
    ∃ made, g.defaultsStage log = (.ok made, log) ∧ (∀ later, made.defaultsStage later = (.ok made, later)) ∧
      (∀ other, g.Completed other ↔ made = other) ∧ (g.WellFormed → made.WellFormed) := by
  refine ⟨g.assignDefaults, rfl, fun later => ?_, fun other => completed_iff, WellFormed.assignDefaults⟩
  rw [defaultsStage, Stage.reporting, assignDefaults_assignDefaults]
  rfl

/-- A default in another spelling is one. A collection under another node gets its own, but is no collection to those
around it. -/
example :
    let verbs := table {} .nested [(".ALL", null {}), ("run", epsilon {})]
    let nouns := relabel {} (.single "text") (table {} .nested [])
    (table {} .nested [("Verbs", verbs), ("Nouns", nouns)]).assignDefaults.render =
      "(coll (Verbs (coll (.ALL ∅) (run ε))) (Nouns (single text (coll (.all (alt))))) " ++
        "(.all (alt $Verbs..all $Nouns)))" := by
  decide +kernel

end SheetGrammar.Grammar
