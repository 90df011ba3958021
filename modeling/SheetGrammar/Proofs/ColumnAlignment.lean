import Mathlib.Data.List.Forall2
import SheetGrammar.Proofs.QuietRuns

/-!
Cells stay under their headers. The columns that may not stand in a test are taken out one by one, the last first, of
the headers and of every row; a row has a cell to give up only if it is long enough. Whatever its length, a row keeps
the cells under the columns that stay, in their order, and all that stands beyond the columns.

- `Grid.without_misfits`: taking out by index is walking along the columns and the elements under them together
  (`keepUnder`).
- `Grid.getElem?_keepUnder`, `Grid.drop_keepUnder`: an element is found where its column is found now, and what no
  column is over stays.
- `Tree.Trims`: a tree and what is left of it, with what is reported: the grids directly under a test lose columns, and
  nothing else changes.
-/

namespace SheetGrammar

/-- What is no mere information is kept, whatever the settings. -/
theorem Log.reportAll_of_severe {messages : List Message} (h : ∀ message ∈ messages, message.isSevere = true)
    (log : Log) : log.reportAll messages = { log with messages := log.messages ++ messages } := by
  induction messages generalizing log with
  | nil => simp [reportAll]
  | cons message rest ih =>
    obtain ⟨hmessage, hrest⟩ := List.forall_mem_cons.mp h
    show (log.report message).reportAll rest = _
    rw [ih hrest, report, if_pos (log.keeps_of_isSevere hmessage)]
    simp

namespace Sheet

namespace Grid

variable {α : Type} {columns : List Column} {column : Column} {index : Nat}

/-! ## Taking out by index -/

def keepUnder : List Column → List α → List α
  | [], elements => elements
  | _ :: _, [] => []
  | column :: columns, element :: elements =>
    if column.header.fitsTest then element :: keepUnder columns elements else keepUnder columns elements

/-- There is nothing to take out of nothing. -/
theorem without_nil (taken : List (Column × Nat)) : without taken ([] : List α) = [] := by
  induction taken with
  | nil => rfl
  | cons first rest ih =>
    show (without rest []).eraseIdx first.2 = []
    rw [ih]
    rfl

/-- What is taken out further on leaves the first element where it is. -/
theorem without_shifted (taken : List (Column × Nat)) (element : α) (elements : List α) :
    without (taken.map fun (column, index) => (column, index + 1)) (element :: elements) =
      element :: without taken elements := by
  induction taken with
  | nil => rfl
  | cons first rest ih =>
    show (without (rest.map fun (column, index) => (column, index + 1)) (element :: elements)).eraseIdx
      (first.2 + 1) = _
    rw [ih, List.eraseIdx_cons_succ]
    rfl

/-- The columns behind the first have their indices behind its. -/
theorem misfits_behind (columns : List Column) :
    ((columns.zipIdx 1).filter fun (column, _) => !column.header.fitsTest) =
      (columns.zipIdx.filter fun (column, _) => !column.header.fitsTest).map fun (column, index) =>
        (column, index + 1) := by
  rw [List.zipIdx_succ, List.filter_map]
  rfl

theorem without_misfits (columns : List Column) (elements : List α) :
    without (columns.zipIdx.filter fun (column, _) => !column.header.fitsTest) elements =
      keepUnder columns elements := by
  induction columns generalizing elements with
  | nil => rfl
  | cons column columns ih =>
    cases elements with
    | nil => exact without_nil _
    | cons element elements =>
      have hbehind :=
        without_shifted (columns.zipIdx.filter fun (column, _) => !column.header.fitsTest) element elements
      rw [List.zipIdx_cons, List.filter_cons, misfits_behind, keepUnder]
      cases hfits : column.header.fitsTest with
      | true => simpa [hfits, ih] using hbehind
      | false =>
        -- the first element goes last
        simp only [hfits, Bool.not_false, if_true, Bool.false_eq_true, if_false]
        show (without _ (element :: elements)).eraseIdx 0 = _
        rw [hbehind, ih]
        rfl

/-! ## What stays, and where -/

/-- The number of columns before this index that may stand in a test: where a column is once the others are taken
out. -/
def newIndex (columns : List Column) (index : Nat) : Nat := (columns.take index).countP (·.header.fitsTest)

theorem keepUnder_self (columns : List Column) : keepUnder columns columns = columns.filter (·.header.fitsTest) := by
  induction columns with
  | nil => rfl
  | cons column columns ih => rw [keepUnder, ih, List.filter_cons]

/-- A column that stays has the same element under it, or none as before. -/
theorem getElem?_keepUnder (hcolumn : columns[index]? = some column) (hfits : column.header.fitsTest = true)
    (elements : List α) : (keepUnder columns elements)[newIndex columns index]? = elements[index]? := by
  induction columns generalizing index elements with
  | nil => cases hcolumn
  | cons first rest ih =>
    cases elements with
    | nil => rfl
    | cons element elements =>
      cases index with
      | zero =>
        cases hcolumn
        rw [keepUnder, if_pos hfits]
        rfl
      | succ index =>
        have hnext := ih hcolumn elements
        rw [newIndex] at hnext ⊢
        rw [keepUnder, List.take_succ_cons, List.countP_cons]
        cases first.header.fitsTest with
        | true => simpa using hnext
        | false => simpa using hnext

/-- What stands beyond the columns stays. -/
theorem drop_keepUnder (columns : List Column) (elements : List α) :
    (keepUnder columns elements).drop (columns.filter (·.header.fitsTest)).length = elements.drop columns.length := by
  induction columns generalizing elements with
  | nil => rfl
  | cons column columns ih =>
    cases elements with
    | nil => simp [keepUnder]
    | cons element elements =>
      rw [keepUnder, List.filter_cons]
      cases column.header.fitsTest with
      | true => exact ih elements
      | false => exact ih elements

end Grid

/-! ## Rows, grids and trees -/

structure Row.Trims (columns : List Column) (row made : Row) : Prop where
  pos : made.pos = row.pos
  /-- Under a column that stays is the cell that was under it, or none as before. -/
  under : ∀ index column, columns[index]? = some column → column.header.fitsTest = true →
    made.cells[Grid.newIndex columns index]? = row.cells[index]? ∧
      made.cell? (Grid.newIndex columns index) = row.cell? index
  /-- The cells beyond the columns are all there. -/
  beyond : made.cells.drop (columns.filter (·.header.fitsTest)).length = row.cells.drop columns.length

structure Grid.Trims (grid made : Grid) : Prop where
  cell : made.cell = grid.cell
  columns : made.columns = grid.columns.filter (·.header.fitsTest)
  /-- A column that stays is found at its new index. -/
  column : ∀ index column, grid.columns[index]? = some column → column.header.fitsTest = true →
    made.columns[newIndex grid.columns index]? = some column
  rows : List.Forall₂ (Row.Trims grid.columns) grid.rows made.rows

def Grid.mistakes (grid : Grid) : List Message :=
  (grid.columns.filter (!·.header.fitsTest)).map fun column =>
    ⟨.nonLiteralTestHeader column.header.render, some column.pos⟩

inductive Tree.Trims : Tree → Tree → List Message → Prop
  /-- A grid directly under a test. -/
  | test (cell : Cell) {operator : Operator} {sibling sibling' : Tree} {content content' : Grid}
      {report : List Message} :
      operator.isTest = true → Trims sibling sibling' report → content.Trims content' →
      Trims (.op cell operator sibling (.grid content)) (.op cell operator sibling' (.grid content'))
        (report ++ content.mistakes)
  | op (cell : Cell) {operator : Operator} {sibling sibling' child child' : Tree} {report report' : List Message} :
      operator.isTest = false ∨ child.isGrid = false → Trims sibling sibling' report → Trims child child' report' →
      Trims (.op cell operator sibling child) (.op cell operator sibling' child') (report ++ report')
  /-- A grid that is not directly under a test. -/
  | grid (content : Grid) : Trims (.grid content) (.grid content) []
  | collection (cell : Cell) (name : String) {children : List (Tree × Tree × List Message)} :
      (∀ child ∈ children, Trims child.1 child.2.1 child.2.2) →
      Trims (.collection cell name (children.map (·.1))) (.collection cell name (children.map (·.2.1)))
        (children.flatMap (·.2.2))
  | empty : Trims .empty .empty []

theorem Row.trims_keepUnder (columns : List Column) (row : Row) :
    row.Trims columns { row with cells := Grid.keepUnder columns row.cells } where
  pos := rfl
  under index column hcolumn hfits := by
    have hcell := Grid.getElem?_keepUnder hcolumn hfits row.cells
    exact ⟨hcell, by simp only [Row.cell?, hcell]⟩
  beyond := Grid.drop_keepUnder columns row.cells

theorem Grid.trims_forTest (grid : Grid) : grid.Trims grid.forTest := by
  have hcolumns : without grid.misfits grid.columns = keepUnder grid.columns grid.columns := without_misfits _ _
  have hrow (row : Row) : row.Trims grid.columns { row with cells := without grid.misfits row.cells } := by
    rw [show without grid.misfits row.cells = keepUnder grid.columns row.cells from without_misfits _ _]
    exact row.trims_keepUnder grid.columns
  rw [forTest_eq]
  refine ⟨rfl, hcolumns.trans (keepUnder_self _), ?_, ?_⟩
  · intro index column hcolumn hfits
    show (without grid.misfits grid.columns)[newIndex grid.columns index]? = _
    rw [hcolumns, getElem?_keepUnder hcolumn hfits, hcolumn]
  · exact List.forall₂_map_right_iff.mpr (List.forall₂_same.mpr fun row _ => hrow row)

/-- One message for each column that is taken out. -/
theorem Grid.misfitMessages_eq (grid : Grid) : grid.misfitMessages = grid.mistakes := by
  have hfst : grid.misfits.map Prod.fst = grid.columns.filter (!·.header.fitsTest) := by
    conv_rhs => rw [← List.zipIdx_map_fst 0 grid.columns, List.filter_map]
    rfl
  rw [misfitMessages, mistakes, ← hfst, List.map_map]
  rfl

namespace Tree

theorem fitted_of_not_grid {tree : Tree} (htree : tree.isGrid = false) (operator : Operator) :
    fitted operator tree = tree := by
  cases tree with
  | grid content => cases htree
  | _ => rfl

theorem isGrid_withTestColumns (tree : Tree) : tree.withTestColumns.isGrid = tree.isGrid := by
  cases tree <;> rfl

/-- Where no grid stands under a test, nothing is taken out and nothing is reported. -/
theorem trims_op (cell : Cell) {operator : Operator} {sibling child : Tree}
    (hplain : operator.isTest = false ∨ child.isGrid = false)
    (hsibling : sibling.Trims sibling.withTestColumns sibling.misfits)
    (hchild : child.Trims child.withTestColumns child.misfits) :
    (Tree.op cell operator sibling child).Trims (Tree.op cell operator sibling child).withTestColumns
      (Tree.op cell operator sibling child).misfits := by
  have hfitted : fitted operator child.withTestColumns = child.withTestColumns := by
    rcases hplain with htest | hgrid
    · exact fitted_of_not_test htest _
    · exact fitted_of_not_grid ((isGrid_withTestColumns child).trans hgrid) operator
  have hreport : misfitsUnder operator child = [] := by
    rcases hplain with htest | hgrid
    · cases child <;> simp [misfitsUnder, htest]
    · cases child with
      | grid content => cases hgrid
      | _ => rfl
  rw [withTestColumns, misfits, hfitted, hreport, List.append_nil]
  exact .op cell hplain hsibling hchild

theorem trims_withTestColumns (tree : Tree) : tree.Trims tree.withTestColumns tree.misfits := by
  induction tree with
  | op cell operator sibling child ihs ihc =>
    cases htest : operator.isTest with
    | false => exact trims_op cell (.inl htest) ihs ihc
    | true =>
      cases child with
      | grid content =>
        have hreport :
            (Tree.op cell operator sibling (.grid content)).misfits = sibling.misfits ++ content.mistakes := by
          simp [misfits, misfitsUnder, htest, content.misfitMessages_eq]
        rw [hreport, withTestColumns, withTestColumns, fitted, if_pos htest]
        exact .test cell htest ihs content.trims_forTest
      | _ => exact trims_op cell (.inr rfl) ihs ihc
  | grid content => exact .grid content
  | collection cell name children ih =>
    have hchildren : ∀ child ∈ children.map fun tree => (tree, tree.withTestColumns, tree.misfits),
        child.1.Trims child.2.1 child.2.2 := by
      intro _ hmem
      obtain ⟨tree, htree, rfl⟩ := List.mem_map.mp hmem
      exact ih tree htree
    simpa [withTestColumns, misfits, List.flatMap_map, Function.comp_def] using Trims.collection cell name hchildren
  | empty => exact .empty

/-- Tests are trimmed without a cell getting under another header. In a grid directly under a test the columns left are
the literal ones and the comments, and every row keeps under each of them what it had there and keeps what it had
beyond the columns. There is a message for each column that is taken out, in order, and nothing else in the tree or in
the log changes. -/
theorem testColumnsStage_trims (tree : Tree) (log : Log) :
    ∃ made report, tree.testColumnsStage log = (.ok made, { log with messages := log.messages ++ report }) ∧
      tree.Trims made report := by
  have hsevere : ∀ message ∈ tree.misfits, message.isSevere = true := by
    intro message hmem
    obtain ⟨header, hfinding⟩ := surveys_misfits.forall_mem finding_of_mem_misfitsUnder tree message hmem
    simp [Message.isSevere, Message.severity, hfinding, Finding.severity]
  refine ⟨tree.withTestColumns, tree.misfits, ?_, tree.trims_withTestColumns⟩
  rw [testColumnsStage, Stage.reporting, Log.reportAll_of_severe hsevere]

end Tree

end Sheet

end SheetGrammar
