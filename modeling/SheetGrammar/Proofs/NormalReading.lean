import SheetGrammar.Proofs.Totality

/-!
What a sheet is read as does not depend on its being brought into normal form first. Writing out the tables that are
left out, and taking the columns out of tests that may not stand there, is for the messages: the grammar, the tests and
all other messages come out as they would without.

- `Grid.tests_forTest`: a test is made of its literal columns, and a row keeps its cells under those, however long it
  is.
- `Tree.Alike`: two trees that nothing around them can tell apart. Trees made of such trees are such trees (`Alike.op`,
  `Alike.collection`), and a grid is one with the table over it (`alike_asTable`).
- `Tree.alike_normal`: a tree and its normal form are alike.
- `Tree.Surveys`: messages on all operators of a tree, given what there is to say of each with its child.
- `Tree.interpretation_transparent`: what the stages give and report, together and alone.
-/

namespace SheetGrammar

/-! ## Logs -/

/-- A report changes nothing about what is kept. -/
theorem Log.keeps_report (log : Log) (message : Message) : (log.report message).keeps = log.keeps := by
  unfold report
  split <;> rfl

theorem Log.messages_report (log : Log) (message : Message) :
    (log.report message).messages = log.messages ++ [message].filter log.keeps := by
  cases hkeeps : log.keeps message <;> simp [report, hkeeps]

/-- What is reported comes after what was, as far as it is kept. -/
theorem Log.messages_reportAll (log : Log) (messages : List Message) :
    (log.reportAll messages).messages = log.messages ++ messages.filter log.keeps := by
  unfold reportAll
  induction messages generalizing log with
  | nil => simp
  | cons message rest ih =>
    rw [List.foldl_cons, ih, keeps_report, messages_report, List.append_assoc, ← List.filter_append,
      List.singleton_append]

theorem Log.reportAll_append (log : Log) (first second : List Message) :
    log.reportAll (first ++ second) = (log.reportAll first).reportAll second := List.foldl_append

namespace Sheet

/-! ## Columns of tests -/

namespace Grid

variable {α γ : Type} {read : Column → Option Cell → Option γ}

def readAlong (read : Column → Option Cell → Option γ) (columns : List Column) (cells : List Cell) : List γ :=
  columns.zipIdx.filterMap fun (column, index) => read column cells[index]?

theorem readAlong_cons (column : Column) (columns : List Column) (cells : List Cell) :
    readAlong read (column :: columns) cells = (read column cells[0]?).toList ++ readAlong read columns cells.tail := by
  have htail : ((columns.zipIdx 1).filterMap fun (column, index) => read column cells[index]?) =
      readAlong read columns cells.tail := by
    rw [List.zipIdx_succ, List.filterMap_map, readAlong]
    simp
  rw [← htail, readAlong, List.zipIdx_cons, List.filterMap_cons]
  cases hread : read column cells[0]? <;> simp [hread]

/-- A column that nothing is read off can be taken out, whether there is a cell under it or not. -/
theorem readAlong_eraseIdx {column : Column} {columns : List Column} {index : Nat}
    (hcolumn : columns[index]? = some column) (hread : ∀ cell, read column cell = none) (cells : List Cell) :
    readAlong read (columns.eraseIdx index) (cells.eraseIdx index) = readAlong read columns cells := by
  induction columns generalizing index cells with
  | nil => cases hcolumn
  | cons first rest ih =>
    cases index with
    | zero =>
      cases hcolumn
      rw [readAlong_cons, hread]
      simp
    | succ index =>
      rw [List.eraseIdx_cons_succ, readAlong_cons, readAlong_cons, ← ih hcolumn cells.tail]
      cases cells <;> rfl

/-- A list without the elements under the given columns, the last taken out first. -/
def without (columns : List (Column × Nat)) (elements : List α) : List α :=
  columns.foldr (fun (_, index) rest => rest.eraseIdx index) elements

theorem forTest_eq (grid : Grid) : grid.forTest =
    { grid with
      columns := without grid.misfits grid.columns
      rows := grid.rows.map fun row => { row with cells := without grid.misfits row.cells } } := by
  unfold forTest
  generalize grid.misfits = columns
  induction columns with
  | nil => simp [without]
  | cons first rest ih =>
    rw [List.foldr_cons, ih]
    simp [removeColumn, without]

/-- Elements before all that are taken out stay where they are. -/
theorem getElem?_without {columns : List (Column × Nat)} {index : Nat} (h : ∀ entry ∈ columns, index < entry.2)
    (elements : List α) : (without columns elements)[index]? = elements[index]? := by
  induction columns with
  | nil => rfl
  | cons first rest ih =>
    obtain ⟨hfirst, hrest⟩ := List.forall_mem_cons.mp h
    rw [without, List.foldr_cons, List.getElem?_eraseIdx_of_lt hfirst]
    exact ih hrest

/-- Columns that nothing is read off can be taken out together with what is under them. -/
theorem readAlong_without {columns : List Column} {taken : List (Column × Nat)} (hsorted : taken.Pairwise (·.2 < ·.2))
    (htaken : ∀ entry ∈ taken, columns[entry.2]? = some entry.1)
    (hread : ∀ entry ∈ taken, ∀ cell, read entry.1 cell = none)
    (cells : List Cell) :
      readAlong read (without taken columns) (without taken cells) = readAlong read columns cells := by
  induction taken with
  | nil => rfl
  | cons first rest ih =>
    obtain ⟨hbefore, hsorted⟩ := List.pairwise_cons.mp hsorted
    obtain ⟨hfirst, htaken⟩ := List.forall_mem_cons.mp htaken
    obtain ⟨hreadFirst, hread⟩ := List.forall_mem_cons.mp hread
    -- the others stand behind it, so it is where it was
    have hplace : (without rest columns)[first.2]? = some first.1 := by rw [getElem?_without hbefore, hfirst]
    rw [← ih hsorted htaken hread]
    exact readAlong_eraseIdx hplace hreadFirst (without rest cells)

theorem pairwise_misfits (grid : Grid) : grid.misfits.Pairwise (·.2 < ·.2) := by
  have hindices : grid.columns.zipIdx.Pairwise (·.2 < ·.2) := by
    rw [← List.pairwise_map (f := Prod.snd) (R := (· < ·)), List.zipIdx_map_snd]
    exact List.pairwise_lt_range'
  exact hindices.sublist List.filter_sublist

theorem mem_misfits {grid : Grid} {entry : Column × Nat} (h : entry ∈ grid.misfits) :
    grid.columns[entry.2]? = some entry.1 ∧ entry.1.header.fitsTest = false := by
  obtain ⟨hmem, hfits⟩ := List.mem_filter.mp h
  exact ⟨List.mem_zipIdx_iff_getElem?.mp hmem, by simpa using hfits⟩

/-- The literal that a cell of a test is, if its column has literals and the cell is not blank. -/
def literalOf (column : Column) (cell : Option Cell) : Option Grammar :=
  (cell.filter (!·.isBlank)).bind fun cell =>
    column.header.literalTape?.map fun tape => .literal (.ofPos (some cell.pos)) tape cell.text

theorem testInput_eq (grid : Grid) (row : Row) :
    grid.testInput row = .combine (.ofPos (some row.pos)) .sequence (readAlong literalOf grid.columns row.cells) := by
  rw [testInput, cellsOf, List.filterMap_filterMap, readAlong]
  simp [Row.cell?, literalOf, Option.bind_map]

/-- The tests of a grid are those of its literal columns. -/
theorem tests_forTest (grid : Grid) (symbol : String) (negated : Bool) :
    grid.forTest.tests symbol negated = grid.tests symbol negated := by
  have hread : ∀ entry ∈ grid.misfits, ∀ cell, literalOf entry.1 cell = none := by
    intro entry he cell
    have hfits := (mem_misfits he).2
    have htape : entry.1.header.literalTape? = none := by
      simpa [Header.fitsTest, Header.isLiteral] using (Bool.or_eq_false_iff.mp hfits).1
    simp [literalOf, htape]
  have hcolumns : ∀ entry ∈ grid.misfits, grid.columns[entry.2]? = some entry.1 := fun entry he => (mem_misfits he).1
  rw [tests, tests, forTest_eq, List.map_map]
  refine List.map_congr_left fun row _ => ?_
  simp [testInput_eq, readAlong_without grid.pairwise_misfits hcolumns hread]

end Grid

/-! ## Trees that are read alike -/

namespace Tree

structure Alike (tree other : Tree) : Prop where
  pos : tree.pos? = other.pos?
  isEmpty : tree.isEmpty = other.isEmpty
  body : ∀ symbol, tree.body symbol = other.body symbol
  statements : ∀ scope, tree.statements scope = other.statements scope
  definiens : ∀ path, tree.definiens path = other.definiens path

variable {tree other sibling sibling' child child' : Tree}

theorem Alike.refl (tree : Tree) : tree.Alike tree := ⟨rfl, rfl, fun _ => rfl, fun _ => rfl, fun _ => rfl⟩

theorem Alike.trans {third : Tree} (h : tree.Alike other) (h' : other.Alike third) : tree.Alike third where
  pos := h.pos.trans h'.pos
  isEmpty := h.isEmpty.trans h'.isEmpty
  body symbol := (h.body symbol).trans (h'.body symbol)
  statements scope := (h.statements scope).trans (h'.statements scope)
  definiens path := (h.definiens path).trans (h'.definiens path)

/-- A grid is read as the table of it. -/
theorem alike_asTable (tree : Tree) : tree.Alike tree.asTable := by
  cases tree with
  | grid content => exact ⟨rfl, rfl, fun _ => rfl, fun _ => rfl, fun _ => rfl⟩
  | _ => exact .refl _

/-- An operator over trees that are read alike. Of what stands under a test only the tests are read. -/
theorem Alike.op (cell : Cell) (operator : Operator) (hsibling : sibling.Alike sibling')
    (hchild : operator.isTest = false → child.Alike child')
    (htests : operator.isTest = true → ∀ symbol negated,
      body.testsIn symbol cell negated child = body.testsIn symbol cell negated child') :
    (Tree.op cell operator sibling child).Alike (.op cell operator sibling' child') := by
  have hbody : ∀ symbol, (Tree.op cell operator sibling child).body symbol =
      (Tree.op cell operator sibling' child').body symbol := by
    intro symbol
    cases operator with
    | table => simp only [Tree.body, hsibling.isEmpty, hsibling.pos, (hchild rfl).isEmpty, (hchild rfl).body]
    | or => simp only [Tree.body, hsibling.body, (hchild rfl).body]
    | test => simp only [Tree.body, hsibling.isEmpty, hsibling.body, htests rfl]
    | testNot => simp only [Tree.body, hsibling.isEmpty, hsibling.body, htests rfl]
    | assign name => simp only [Tree.body, (hchild rfl).body]
  refine ⟨rfl, rfl, hbody, ?_, fun path => hbody _⟩
  intro scope
  cases operator with
  | assign name => rw [Tree.statements, Tree.statements, hsibling.statements, (hchild rfl).definiens]
  | _ => rfl

/-- A collection of trees that are read alike. -/
theorem Alike.collection (cell : Cell) (name : String) {children : List Tree} {change : Tree → Tree}
    (h : ∀ tree ∈ children, tree.Alike (change tree)) :
    (Tree.collection cell name children).Alike (.collection cell name (children.map change)) := by
  have hstatements : ∀ scope, allStatements scope children = allStatements scope (children.map change) := by
    intro scope
    rw [allStatements_eq, allStatements_eq, List.flatMap_map]
    exact List.flatMap_congr fun tree ht => (h tree ht).statements scope
  refine ⟨rfl, rfl, fun _ => rfl, ?_, ?_⟩
  · intro scope
    rw [Tree.statements, Tree.statements, hstatements]
  · intro path
    rw [Tree.definiens, Tree.definiens, hstatements]

/-! ## Normal form -/

@[simp] theorem allWithTables_eq (trees : List Tree) :
    allWithTables trees = trees.map fun tree => tree.withTables.asTable := by
  induction trees with
  | nil => rfl
  | cons tree rest ih => rw [allWithTables, ih, List.map_cons]

@[simp] theorem allWithTestColumns_eq (trees : List Tree) : allWithTestColumns trees = trees.map withTestColumns := by
  induction trees with
  | nil => rfl
  | cons tree rest ih => rw [allWithTestColumns, ih, List.map_cons]

theorem alike_underOperator (operator : Operator) (tree : Tree) : tree.Alike (underOperator operator tree) := by
  unfold underOperator
  split
  · exact .refl tree
  · exact tree.alike_asTable

/-- Under a test no table is written, and other trees than grids give no tests. -/
theorem testsIn_withTables (symbol : String) (cell : Cell) (negated : Bool) (tree : Tree) :
    body.testsIn symbol cell negated tree.withTables = body.testsIn symbol cell negated tree := by
  cases tree <;> rfl

/-- Tables that are left out are read as if they were written. -/
theorem alike_withTables (tree : Tree) : tree.Alike tree.withTables := by
  induction tree with
  | op cell operator sibling child ihs ihc =>
    refine .op cell operator (ihs.trans (alike_asTable _)) (fun _ => ihc.trans (alike_underOperator operator _)) ?_
    intro htest symbol negated
    have hgrid : operator.takesGrid = true := by
      cases operator <;> first | rfl | cases htest
    rw [underOperator, if_pos hgrid, testsIn_withTables]
  | grid content => exact .refl _
  | collection cell name children ih =>
    rw [withTables, allWithTables_eq]
    exact .collection cell name fun tree ht => (ih tree ht).trans (alike_asTable _)
  | empty => exact .refl _

/-- Columns that may not stand in a test give no part of it. -/
theorem testsIn_fitted {operator : Operator} (htest : operator.isTest = true) (symbol : String) (cell : Cell)
    (negated : Bool) (tree : Tree) :
    body.testsIn symbol cell negated (fitted operator tree.withTestColumns) =
      body.testsIn symbol cell negated tree := by
  cases tree with
  | grid content => rw [withTestColumns, fitted, if_pos htest, body.testsIn, body.testsIn, content.tests_forTest]
  | _ => rfl

theorem fitted_of_not_test {operator : Operator} (htest : operator.isTest = false) (tree : Tree) :
    fitted operator tree = tree := by
  cases tree with
  | grid content => simp [fitted, htest]
  | _ => rfl

/-- Columns that may not stand in a test are not read there. -/
theorem alike_withTestColumns (tree : Tree) : tree.Alike tree.withTestColumns := by
  induction tree with
  | op cell operator sibling child ihs ihc =>
    refine .op cell operator ihs ?_ ?_
    · intro htest
      rw [fitted_of_not_test htest]
      exact ihc
    · intro htest symbol negated
      exact (testsIn_fitted htest symbol cell negated child).symm
  | grid content => exact .refl _
  | collection cell name children ih =>
    rw [withTestColumns, allWithTestColumns_eq]
    exact .collection cell name ih
  | empty => exact .refl _

/-- A tree is read as its normal form is. -/
theorem alike_normal (tree : Tree) : tree.Alike tree.normal := tree.alike_withTables.trans (alike_withTestColumns _)

theorem grammar_normal (tree : Tree) : tree.normal.grammar = tree.grammar := by
  have h := tree.alike_normal
  cases tree with
  | collection cell name children => exact (h.definiens []).symm
  | op cell operator sibling child => exact congrArg (Statement.grammarOf (some cell.pos)) (h.statements []).symm
  | grid content => rfl
  | empty => rfl

/-! ## What is reported -/

@[simp] theorem allImplicitTables_eq (trees : List Tree) : allImplicitTables trees = trees.flatMap implicitTables := by
  induction trees with
  | nil => rfl
  | cons tree rest ih => rw [allImplicitTables, ih, List.flatMap_cons]

@[simp] theorem allMisfits_eq (trees : List Tree) : allMisfits trees = trees.flatMap misfits := by
  induction trees with
  | nil => rfl
  | cons tree rest ih => rw [allMisfits, ih, List.flatMap_cons]

structure Surveys (survey : Tree → List Message) (note : Operator → Tree → List Message) : Prop where
  op : ∀ cell operator sibling child,
    survey (.op cell operator sibling child) = survey sibling ++ survey child ++ note operator child
  grid : ∀ content, survey (.grid content) = []
  collection : ∀ cell name children, survey (.collection cell name children) = children.flatMap survey
  empty : survey .empty = []

theorem surveys_implicitTables : Surveys implicitTables implicitTable where
  op _ _ _ _ := rfl
  grid _ := rfl
  collection _ _ children := by rw [implicitTables, allImplicitTables_eq]
  empty := rfl

theorem surveys_misfits : Surveys misfits misfitsUnder where
  op _ _ _ _ := rfl
  grid _ := rfl
  collection _ _ children := by rw [misfits, allMisfits_eq]
  empty := rfl

/-- What holds of the messages on each operator holds of all. -/
theorem Surveys.forall_mem {survey : Tree → List Message} {note : Operator → Tree → List Message}
    (h : Surveys survey note) {P : Message → Prop}
    (hnote : ∀ operator child, ∀ message ∈ note operator child, P message) (tree : Tree) :
    ∀ message ∈ survey tree, P message := by
  induction tree with
  | op cell operator sibling child ihs ihc =>
    rw [h.op]
    intro message hmem
    rcases List.mem_append.mp hmem with hmem | hmem
    · exact (List.mem_append.mp hmem).elim (ihs message) (ihc message)
    · exact hnote operator child message hmem
  | grid content => simp [h.grid]
  | collection cell name children ih =>
    rw [h.collection]
    intro message hmem
    obtain ⟨tree, ht, hmem⟩ := List.mem_flatMap.mp hmem
    exact ih tree ht message hmem
  | empty => simp [h.empty]

theorem finding_of_mem_implicitTable (operator : Operator) (child : Tree) :
    ∀ message ∈ implicitTable operator child, ∃ above, message.finding = .implicitTable above := by
  intro message hmem
  unfold implicitTable at hmem
  split at hmem
  · split at hmem
    · cases hmem
    · rw [List.mem_singleton.mp hmem]
      exact ⟨_, rfl⟩
  · cases hmem

theorem finding_of_mem_misfitsUnder (operator : Operator) (child : Tree) :
    ∀ message ∈ misfitsUnder operator child, ∃ header, message.finding = .nonLiteralTestHeader header := by
  intro message hmem
  unfold misfitsUnder at hmem
  split at hmem
  · split at hmem
    · obtain ⟨column, -, rfl⟩ := List.mem_map.mp hmem
      exact ⟨_, rfl⟩
    · cases hmem
  · cases hmem

/-- Normal form is transparent. Read after the two stages that bring it about, a sheet gives the grammar and the tests
that it gives alone; the messages are the notes on tables, then the mistakes in tests, then what is reported alone. -/
theorem interpretation_transparent (tree : Tree) (keepInfo : Bool) :
    let fresh : Log := { keepInfo }
    let notes := (tree.tablesStage fresh).2.messages
    let mistakes := (tree.withTables.testColumnsStage fresh).2.messages
    (tree.tablesStage fresh).1 = .ok tree.withTables ∧
      (tree.interpretation fresh).1 = (tree.grammarStage fresh).1 ∧
      (tree.interpretation fresh).2.tests = (tree.grammarStage fresh).2.tests ∧
      (tree.interpretation fresh).2.messages = notes ++ mistakes ++ (tree.grammarStage fresh).2.messages ∧
      (∀ message ∈ notes, ∃ operator, message.finding = .implicitTable operator) ∧
      ∀ message ∈ mistakes, ∃ header, message.finding = .nonLiteralTestHeader header := by
  intro fresh notes mistakes
  have hnotes : notes = tree.implicitTables.filter fresh.keeps := fresh.messages_reportAll _
  have hmistakes : mistakes = tree.withTables.misfits.filter fresh.keeps := fresh.messages_reportAll _
  have halone : (tree.grammarStage fresh).2.messages = tree.grammar.messages.filter fresh.keeps :=
    fresh.messages_reportAll _
  have hstages : tree.interpretation fresh = tree.normal.grammarStage
      ((fresh.reportAll tree.implicitTables).reportAll tree.withTables.misfits) := rfl
  refine ⟨rfl, ?_, ?_, ?_, ?_, ?_⟩
  · rw [hstages, grammarStage, grammar_normal]
    rfl
  · rw [hstages, grammarStage, grammar_normal]
    simp [Log.addTests, grammarStage]
  · rw [hstages, grammarStage, grammar_normal, hnotes, hmistakes, halone]
    show (Log.reportAll _ _).messages = _
    rw [← Log.reportAll_append, ← Log.reportAll_append, Log.messages_reportAll, List.filter_append, List.filter_append,
      List.append_assoc]
    rfl
  · intro message hmem
    rw [hnotes] at hmem
    exact surveys_implicitTables.forall_mem finding_of_mem_implicitTable tree message (List.mem_of_mem_filter hmem)
  · intro message hmem
    rw [hmistakes] at hmem
    exact surveys_misfits.forall_mem finding_of_mem_misfitsUnder tree.withTables message (List.mem_of_mem_filter hmem)

end Tree

end Sheet

end SheetGrammar
