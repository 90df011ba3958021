import SheetGrammar.Proofs.ColumnAlignment

/-!
The normal form of a sheet. A grid that is not the whole sheet stands directly under `table`, `test` or `testnot`, and
a test has literal columns and comments only. The two stages before reading bring this about. Each works on trees whose
parts it has changed already, and both look at what stands under the same operators; neither undoes or repeats what the
other does.

- `Tree.gridsIn`: all grids of a tree, each with what it stands in (`Context`). `Tree.Normal` is said of this list.
- `Tree.normal_normal`: what the two stages make is normal.
- `Tree.withTables_withTestColumns`: the stages can change places.
- `Tree.NormalIn.withTables_eq`, `Tree.NormalIn.withTestColumns_eq`: a tree that is normal is left as it is, and
  nothing is reported of it.
- `Tree.normalForm_stages`: the stages as they run.
-/

namespace SheetGrammar.Sheet

/-! ## Where grids stand -/

inductive Context where
  /-- In nothing: it is the whole sheet. -/
  | alone
  /-- Above an operator, as its sibling. -/
  | above
  /-- Directly under an operator, as its child. -/
  | under (operator : Operator)
  /-- In a collection. -/
  | member
deriving DecidableEq, Repr

def Grid.FitsTest (grid : Grid) : Prop :=
  ∀ column ∈ grid.columns, column.header.isLiteral = true ∨ column.header.isComment = true

instance (grid : Grid) : Decidable grid.FitsTest :=
  inferInstanceAs (Decidable (∀ column ∈ grid.columns, column.header.isLiteral = true ∨ column.header.isComment = true))

def Context.Admits (grid : Grid) : Context → Prop
  | alone | under .table => True
  | under .test | under .testNot => grid.FitsTest
  | above | under .or | under (.assign _) | member => False

instance (grid : Grid) : (context : Context) → Decidable (context.Admits grid)
  | .alone | .under .table => .isTrue trivial
  | .under .test | .under .testNot => inferInstanceAs (Decidable grid.FitsTest)
  | .above | .under .or | .under (.assign _) | .member => .isFalse id

theorem Operator.isTest_of_not_takesGrid {operator : Operator} (h : operator.takesGrid = false) :
    operator.isTest = false := by
  cases operator with
  | or => rfl
  | assign name => rfl
  | _ => cases h

/-- Where an operator takes no grid, none may stand under it. -/
theorem Context.not_admits_under {operator : Operator} (h : operator.takesGrid = false) (grid : Grid) :
    ¬(under operator).Admits grid := by
  cases operator with
  | or => exact id
  | assign name => exact id
  | _ => cases h

namespace Grid

theorem fitsTest_forTest (grid : Grid) : grid.forTest.FitsTest := by
  intro column hmem
  rw [grid.trims_forTest.columns] at hmem
  exact Bool.or_eq_true_iff.mp (List.mem_filter.mp hmem).2

theorem FitsTest.misfits_eq_nil {grid : Grid} (h : grid.FitsTest) : grid.misfits = [] := by
  refine List.filter_eq_nil_iff.mpr fun entry hmem => ?_
  have hfits : entry.1.header.fitsTest = true := Bool.or_eq_true_iff.mpr (h entry.1 (List.fst_mem_of_mem_zipIdx hmem))
  simp [hfits]

end Grid

namespace Tree

mutual

/-- All grids of a tree, each with what it stands in; `context` is what the tree itself stands in. -/
def gridsIn (context : Context) : Tree → List (Context × Grid)
  | op _ operator sibling child => sibling.gridsIn .above ++ child.gridsIn (.under operator)
  | grid content => [(context, content)]
  | collection _ _ children => gridsOfMembers children
  | empty => []

def gridsOfMembers : List Tree → List (Context × Grid)
  | [] => []
  | tree :: rest => tree.gridsIn .member ++ gridsOfMembers rest

end

@[simp] theorem gridsOfMembers_eq (trees : List Tree) : gridsOfMembers trees = trees.flatMap (gridsIn .member) := by
  induction trees with
  | nil => rfl
  | cons tree rest ih => rw [gridsOfMembers, ih, List.flatMap_cons]

def NormalIn (context : Context) (tree : Tree) : Prop := ∀ entry ∈ tree.gridsIn context, entry.1.Admits entry.2

def Normal (tree : Tree) : Prop := tree.NormalIn .alone

instance (tree : Tree) : Decidable tree.Normal :=
  inferInstanceAs (Decidable (∀ entry ∈ tree.gridsIn .alone, entry.1.Admits entry.2))

variable {context : Context} {operator : Operator} {tree sibling child : Tree}

theorem normalIn_op {cell : Cell} :
    (Tree.op cell operator sibling child).NormalIn context ↔
      sibling.NormalIn .above ∧ child.NormalIn (.under operator) :=
  List.forall_mem_append

theorem normalIn_grid {content : Grid} : (Tree.grid content).NormalIn context ↔ context.Admits content :=
  List.forall_mem_singleton

theorem normalIn_collection {cell : Cell} {name : String} {children : List Tree} :
    (Tree.collection cell name children).NormalIn context ↔ ∀ tree ∈ children, tree.NormalIn .member := by
  unfold NormalIn
  rw [gridsIn, gridsOfMembers_eq, List.forall_mem_flatMap]

theorem normalIn_empty : Tree.empty.NormalIn context := by
  intro entry h
  cases h

/-! ## What the stages make is normal -/

/-- With a table over it, a grid may stand anywhere. -/
theorem NormalIn.asTable (h : tree.NormalIn .alone) : tree.asTable.NormalIn context := by
  cases tree with
  | grid content => exact normalIn_op.mpr ⟨normalIn_empty, normalIn_grid.mpr trivial⟩
  | _ => exact h

/-- Fitted to an operator that takes grids, a grid may stand under it. -/
theorem NormalIn.fitted (h : tree.NormalIn .alone) (hgrid : operator.takesGrid = true) :
    (fitted operator tree).NormalIn (.under operator) := by
  cases tree with
  | grid content =>
    rw [Tree.fitted, normalIn_grid]
    cases operator with
    | table => trivial
    | test => exact content.fitsTest_forTest
    | testNot => exact content.fitsTest_forTest
    | or => cases hgrid
    | assign name => cases hgrid
  | _ => exact h

theorem withTestColumns_asTable (tree : Tree) : tree.asTable.withTestColumns = tree.withTestColumns.asTable := by
  cases tree <;> rfl

theorem withTestColumns_underOperator (operator : Operator) (tree : Tree) :
    (underOperator operator tree).withTestColumns = underOperator operator tree.withTestColumns := by
  unfold underOperator
  split
  · rfl
  · exact withTestColumns_asTable tree

/-- The two stages make a normal tree of any tree. -/
theorem normal_normal (tree : Tree) : tree.normal.Normal := by
  unfold normal Normal
  induction tree with
  | op cell operator sibling child ihs ihc =>
    rw [withTables, withTestColumns, withTestColumns_asTable, withTestColumns_underOperator]
    refine normalIn_op.mpr ⟨ihs.asTable, ?_⟩
    cases hgrid : operator.takesGrid with
    | true =>
      rw [underOperator, if_pos hgrid]
      exact ihc.fitted hgrid
    | false =>
      rw [fitted_of_not_test (Operator.isTest_of_not_takesGrid hgrid), underOperator,
        if_neg (Bool.eq_false_iff.mp hgrid)]
      exact ihc.asTable
  | grid content => exact normalIn_grid.mpr trivial
  | collection cell name children ih =>
    rw [withTables, withTestColumns, allWithTables_eq, allWithTestColumns_eq, List.map_map, normalIn_collection]
    intro made hmade
    obtain ⟨tree, htree, rfl⟩ := List.mem_map.mp hmade
    rw [Function.comp_apply, withTestColumns_asTable]
    exact (ih tree htree).asTable
  | empty => exact normalIn_empty

/-! ## The stages in either order -/

theorem withTables_fitted (operator : Operator) (tree : Tree) :
    (fitted operator tree).withTables = fitted operator tree.withTables := by
  cases tree <;> rfl

/-- Under an operator, a table is written over a grid or its columns are taken out, never both. -/
theorem underOperator_fitted (operator : Operator) (tree : Tree) :
    underOperator operator (fitted operator tree) = fitted operator (underOperator operator tree) := by
  unfold underOperator
  cases hgrid : operator.takesGrid with
  | true => rfl
  | false =>
    have htest := Operator.isTest_of_not_takesGrid hgrid
    rw [fitted_of_not_test htest, fitted_of_not_test htest]

theorem withTables_withTestColumns (tree : Tree) : tree.withTestColumns.withTables = tree.normal := by
  unfold normal
  induction tree with
  | op cell operator sibling child ihs ihc =>
    calc (Tree.op cell operator sibling child).withTestColumns.withTables
      _ = .op cell operator sibling.withTestColumns.withTables.asTable
            (underOperator operator (fitted operator child.withTestColumns).withTables) := rfl
      _ = .op cell operator sibling.withTables.withTestColumns.asTable
            (fitted operator (underOperator operator child.withTables.withTestColumns)) := by
          rw [ihs, withTables_fitted, ihc, underOperator_fitted]
      _ = (Tree.op cell operator sibling child).withTables.withTestColumns := by
          rw [withTables, withTestColumns, withTestColumns_asTable, withTestColumns_underOperator]
  | grid content => rfl
  | collection cell name children ih =>
    rw [withTestColumns, withTables, withTables, withTestColumns]
    simp only [allWithTables_eq, allWithTestColumns_eq, List.map_map]
    refine congrArg _ (List.map_congr_left fun tree htree => ?_)
    rw [Function.comp_apply, Function.comp_apply, ih tree htree, withTestColumns_asTable]
  | empty => rfl

/-! ## Normal trees are left as they are -/

/-- Where no grid may stand there is none. -/
theorem NormalIn.not_grid (h : tree.NormalIn context) (hnone : ∀ grid, ¬context.Admits grid) : tree.isGrid = false := by
  cases tree with
  | grid content => exact absurd (normalIn_grid.mp h) (hnone content)
  | _ => rfl

theorem asTable_of_not_grid (htree : tree.isGrid = false) : tree.asTable = tree := by
  cases tree with
  | grid content => cases htree
  | _ => rfl

/-- A normal tree under an operator needs no table over it. -/
theorem NormalIn.underOperator_eq (h : tree.NormalIn (.under operator)) :
    underOperator operator tree = tree ∧ implicitTable operator tree = [] := by
  cases hgrid : operator.takesGrid with
  | true =>
    refine ⟨by rw [underOperator, if_pos hgrid], ?_⟩
    cases tree <;> simp [implicitTable, hgrid]
  | false =>
    have hplain : tree.isGrid = false := h.not_grid (Context.not_admits_under hgrid)
    refine ⟨by rw [underOperator, asTable_of_not_grid hplain, ite_self], ?_⟩
    cases tree with
    | grid content => cases hplain
    | _ => rfl

/-- No table is left out of a normal tree. -/
theorem NormalIn.withTables_eq (h : tree.NormalIn context) : tree.withTables = tree ∧ tree.implicitTables = [] := by
  induction tree generalizing context with
  | op cell operator sibling child ihs ihc =>
    obtain ⟨hsibling, hchild⟩ := normalIn_op.mp h
    obtain ⟨hsame, hnone⟩ := ihs hsibling
    obtain ⟨hsame', hnone'⟩ := ihc hchild
    obtain ⟨hunder, hnote⟩ := hchild.underOperator_eq
    have habove : sibling.asTable = sibling := asTable_of_not_grid (hsibling.not_grid fun _ => id)
    rw [withTables, implicitTables, hsame, hsame', hnone, hnone', habove, hunder, hnote]
    exact ⟨rfl, rfl⟩
  | grid content => exact ⟨rfl, rfl⟩
  | collection cell name children ih =>
    have hchildren := normalIn_collection.mp h
    have hmembers : ∀ tree ∈ children, tree.withTables.asTable = tree := by
      intro tree htree
      rw [(ih tree htree (hchildren tree htree)).1]
      exact asTable_of_not_grid ((hchildren tree htree).not_grid fun _ => id)
    rw [withTables, implicitTables, allWithTables_eq, allImplicitTables_eq, List.map_congr_left hmembers, List.map_id']
    exact ⟨rfl, List.flatMap_eq_nil_iff.mpr fun tree htree => (ih tree htree (hchildren tree htree)).2⟩
  | empty => exact ⟨rfl, rfl⟩

/-- A normal tree under an operator has no columns to lose. -/
theorem NormalIn.fitted_eq (h : tree.NormalIn (.under operator)) :
    Tree.fitted operator tree = tree ∧ misfitsUnder operator tree = [] := by
  cases tree with
  | grid content =>
    cases htest : operator.isTest with
    | true =>
      have hfits : content.FitsTest := by
        have hadmits := normalIn_grid.mp h
        cases operator with
        | test => exact hadmits
        | testNot => exact hadmits
        | _ => cases htest
      simp [Tree.fitted, misfitsUnder, htest, Grid.forTest, Grid.misfitMessages, hfits.misfits_eq_nil]
    | false => simp [Tree.fitted, misfitsUnder, htest]
  | _ => exact ⟨rfl, rfl⟩

/-- No column of a test in a normal tree is a mistake. -/
theorem NormalIn.withTestColumns_eq (h : tree.NormalIn context) : tree.withTestColumns = tree ∧ tree.misfits = [] := by
  induction tree generalizing context with
  | op cell operator sibling child ihs ihc =>
    obtain ⟨hsibling, hchild⟩ := normalIn_op.mp h
    obtain ⟨hsame, hnone⟩ := ihs hsibling
    obtain ⟨hsame', hnone'⟩ := ihc hchild
    obtain ⟨hfitted, hmistakes⟩ := hchild.fitted_eq
    rw [withTestColumns, misfits, hsame, hsame', hnone, hnone', hfitted, hmistakes]
    exact ⟨rfl, rfl⟩
  | grid content => exact ⟨rfl, rfl⟩
  | collection cell name children ih =>
    have hchildren := normalIn_collection.mp h
    have hmembers : ∀ tree ∈ children, tree.withTestColumns = tree :=
      fun tree htree => (ih tree htree (hchildren tree htree)).1
    rw [withTestColumns, misfits, allWithTestColumns_eq, allMisfits_eq, List.map_congr_left hmembers, List.map_id']
    exact ⟨rfl, List.flatMap_eq_nil_iff.mpr fun tree htree => (ih tree htree (hchildren tree htree)).2⟩
  | empty => exact ⟨rfl, rfl⟩

/-! ## The stages as they run -/

theorem Normal.tablesStage_eq (h : tree.Normal) (log : Log) : tree.tablesStage log = (.ok tree, log) := by
  rw [tablesStage, Stage.reporting, h.withTables_eq.1, h.withTables_eq.2]
  rfl

theorem Normal.testColumnsStage_eq (h : tree.Normal) (log : Log) : tree.testColumnsStage log = (.ok tree, log) := by
  rw [testColumnsStage, Stage.reporting, h.withTestColumns_eq.1, h.withTestColumns_eq.2]
  rfl

/-- The two stages bring a sheet into normal form, in either order into the same. Run again on what they made, in
either order, they leave it as it is and report nothing. A sheet that is in normal form, and no other, is left as it is
the first time. -/
theorem normalForm_stages (tree : Tree) (log : Log) :
    ∃ made, ((tablesStage.andThen testColumnsStage) tree log).1 = .ok made ∧ made.Normal ∧
      ((testColumnsStage.andThen tablesStage) tree log).1 = .ok made ∧
      (∀ later, (tablesStage.andThen testColumnsStage) made later = (.ok made, later)) ∧
      (∀ later, (testColumnsStage.andThen tablesStage) made later = (.ok made, later)) ∧
      (tree.Normal ↔ made = tree) := by
  have hnormal := tree.normal_normal
  refine ⟨tree.normal, rfl, hnormal, ?_, ?_, ?_, ?_, ?_⟩
  · show Except.ok tree.withTestColumns.withTables = .ok tree.normal
    rw [withTables_withTestColumns]
  · intro later
    rw [Stage.andThen, hnormal.tablesStage_eq]
    exact hnormal.testColumnsStage_eq later
  · intro later
    rw [Stage.andThen, hnormal.testColumnsStage_eq]
    exact hnormal.tablesStage_eq later
  · intro h
    rw [normal, h.withTables_eq.1, h.withTestColumns_eq.1]
  · intro h
    rwa [h] at hnormal

/-- A grid in a collection, one above a test, and a test with a column too many. -/
example :
    let cell : Cell := ⟨"", ⟨"Sheet", 0, 0⟩⟩
    let made (headers : List Header) : Grid := ⟨cell, headers.map fun header => ⟨header, cell.pos⟩, []⟩
    let test : Tree := .op cell .test (.grid (made [.embed])) (.grid (made [.embed, .tape "text", .comment]))
    let tree : Tree := .collection cell "" [.grid (made [.choice "text"]), .op cell (.assign "verb") .empty test]
    ¬tree.Normal ∧ tree.normal.gridsIn .alone =
      [(.under .table, made [.choice "text"]), (.under .table, made [.embed]),
        (.under .test, made [.tape "text", .comment])] := by
  decide

end Tree

end SheetGrammar.Sheet
