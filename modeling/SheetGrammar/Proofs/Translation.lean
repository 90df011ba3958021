import SheetGrammar.Proofs.GrammarNodes
import SheetGrammar.Sheet.Stages

/-!
What a sheet is read as. Whatever operators, grids and collections a tree holds, and wherever they stand in it, its
grammar is a collection in which collections stand only directly in collections (`Grammar.WellNested`), and the tests
that it asks for are rows of literals (`Grammar.IsRow`).

Readings are put together by `bind`, so what is claimed of them is put together the same way: `Reading.Gives` says of a
reading that its value has a property and its tests are rows, and `Gives.bind` passes the property on to the next
reading.
-/

namespace SheetGrammar

inductive Grammar.WellNested : Grammar → Prop
  | plain {g : Grammar} : g.hasNested = false → WellNested g
  | collection (m : Mark) {entries : List (String × Grammar)} :
      (∀ entry ∈ entries, WellNested entry.2) → WellNested (.table m .nested entries)

def Grammar.IsRow (g : Grammar) : Prop :=
  ∃ m parts, g = .combine m .sequence parts ∧ ∀ part ∈ parts, ∃ m' tape text, part = .literal m' tape text

namespace Sheet

namespace Reading

variable {α β : Type} {P : α → Prop} {Q : β → Prop} {r : Reading α} {f : α → Reading β}

/-- The value has the property, and the tests are rows of literals. -/
def Gives (r : Reading α) (P : α → Prop) : Prop := P r.value ∧ ∀ test ∈ r.tests, test.input.IsRow

theorem Gives.pure {a : α} (h : P a) : (pure a : Reading α).Gives P := ⟨h, fun _ ht => nomatch ht⟩

theorem Gives.bind (hr : r.Gives P) (hf : ∀ a, P a → (f a).Gives Q) : (r >>= f).Gives Q := by
  obtain ⟨hvalue, htests⟩ := hf r.value hr.1
  refine ⟨hvalue, ?_⟩
  intro test ht
  rw [bind_tests] at ht
  rcases List.mem_append.mp ht with ht | ht
  · exact hr.2 test ht
  · exact htests test ht

theorem Gives.imp {P' : α → Prop} (hr : r.Gives P) (h : ∀ a, P a → P' a) : r.Gives P' := ⟨h _ hr.1, hr.2⟩

theorem gives_report (finding : Finding) (pos : Option Position) : (report finding pos).Gives fun _ => True :=
  ⟨trivial, fun _ ht => nomatch ht⟩

theorem gives_reportAll (messages : List Message) : (reportAll messages).Gives fun _ => True :=
  ⟨trivial, fun _ ht => nomatch ht⟩

/-- A reading that is done after some reports. -/
theorem Gives.after_report {next : Reading β} (h : next.Gives Q) (finding : Finding) (pos : Option Position) :
    (report finding pos >>= fun _ => next).Gives Q :=
  (gives_report finding pos).bind fun _ _ => h

end Reading

/-! ## Grids -/

theorem Header.hasNested_grammar {header : Header} {cell : Cell} {g : Grammar} (h : header.grammar cell = some g) :
    g.hasNested = false := by
  induction header with
  | tape name => cases h; rfl
  | unique inner ih => exact ih h
  | embed => cases h; rfl
  | rename source target => cases h; rfl
  | choice name =>
    cases h
    rw [Grammar.hasNested_relabel, Grammar.hasNested_combine]
    exact List.forall_mem_map.mpr fun piece _ => rfl
  | comment => cases h

namespace Grid

theorem hasNested_rowGrammar (grid : Grid) (row : Row) : (grid.rowGrammar row).hasNested = false := by
  rw [rowGrammar, Grammar.hasNested_combine]
  intro g hg
  obtain ⟨⟨column, cell⟩, -, hc⟩ := List.mem_filterMap.mp hg
  exact Header.hasNested_grammar hc

theorem gives_grammar (grid : Grid) : grid.grammar.Gives fun g => g.hasNested = false := by
  unfold grammar
  simp only []
  split
  · exact Reading.Gives.after_report (.pure rfl) _ _
  · refine (Reading.gives_reportAll _).bind fun _ _ => .pure ?_
    exact Grammar.hasNested_combine.mpr (List.forall_mem_map.mpr fun row _ => grid.hasNested_rowGrammar row)

theorem isRow_testInput (grid : Grid) (row : Row) : (grid.testInput row).IsRow := by
  refine ⟨_, _, rfl, ?_⟩
  intro part hp
  obtain ⟨⟨column, cell⟩, -, hc⟩ := List.mem_filterMap.mp hp
  obtain ⟨tape, -, rfl⟩ := Option.map_eq_some_iff.mp hc
  exact ⟨_, tape, cell.text, rfl⟩

theorem isRow_of_mem_tests {grid : Grid} {symbol : String} {negated : Bool} {test : TestCase}
    (h : test ∈ grid.tests symbol negated) : test.input.IsRow := by
  obtain ⟨row, -, rfl⟩ := List.mem_map.mp h
  exact grid.isRow_testInput row

end Grid

/-! ## Trees -/

namespace Tree

/-- Induction with a hypothesis for the sibling and the child of an operator and for all children of a collection. -/
@[elab_as_elim, induction_eliminator]
theorem induct {motive : Tree → Prop}
    (op : ∀ cell operator sibling child, motive sibling → motive child → motive (.op cell operator sibling child))
    (grid : ∀ content, motive (.grid content))
    (collection : ∀ cell name children, (∀ tree ∈ children, motive tree) → motive (.collection cell name children))
    (empty : motive .empty) : ∀ tree, motive tree
  | .op cell operator sibling child =>
    op cell operator sibling child (induct op grid collection empty sibling) (induct op grid collection empty child)
  | .grid content => grid content
  | .collection cell name children =>
    collection cell name children fun tree _ => induct op grid collection empty tree
  | .empty => empty

theorem gives_testsIn (symbol : String) (cell : Cell) (negated : Bool) (tree : Tree) :
    (body.testsIn symbol cell negated tree).Gives fun _ => True := by
  unfold body.testsIn
  split
  · exact ⟨trivial, fun test ht => Grid.isRow_of_mem_tests ht⟩
  · exact Reading.gives_report _ _
  · exact Reading.gives_report _ _

theorem gives_untested (cell : Cell) (operator : Operator) :
    (body.untested cell operator).Gives fun g => g.hasNested = false :=
  Reading.Gives.after_report (.pure rfl) _ _

/-- The tests under an operator change nothing about what is tested. -/
theorem gives_tested {symbol : String} {cell : Cell} {negated : Bool} {child : Tree} {tested : Reading Grammar}
    (h : tested.Gives fun g => g.hasNested = false) :
    (tested >>= fun g => do
      body.testsIn symbol cell negated child
      return g).Gives fun g => g.hasNested = false :=
  h.bind fun _ hg => (gives_testsIn symbol cell negated child).bind fun _ _ => .pure hg

/-- The content of a symbol has no collection in it: one that stands there is left out. -/
theorem gives_body (symbol : String) (tree : Tree) : (tree.body symbol).Gives fun g => g.hasNested = false := by
  induction tree with
  | empty => exact .pure rfl
  | grid content => exact content.gives_grammar
  | collection cell name children => exact Reading.Gives.after_report (.pure rfl) _ _
  | op cell operator sibling child ihs ihc =>
    cases operator with
    | table =>
      have hchild : (if child.isEmpty then do
            Reading.report .emptyTable (some cell.pos)
            return .epsilon (.ofPos (some cell.pos))
          else child.body symbol : Reading Grammar).Gives fun g => g.hasNested = false := by
        split
        · exact Reading.Gives.after_report (.pure rfl) _ _
        · exact ihc
      unfold body
      dsimp only
      split
      · exact hchild
      · exact hchild.after_report _ _
    | test =>
      unfold body
      dsimp only
      split
      · exact gives_tested (gives_untested cell .test)
      · exact gives_tested ihs
    | testNot =>
      unfold body
      dsimp only
      split
      · exact gives_tested (gives_untested cell .testNot)
      · exact gives_tested ihs
    | or =>
      unfold body
      refine ihs.bind fun left hleft => ihc.bind fun right hright => .pure ?_
      exact Grammar.hasNested_combine.mpr (by simp [hleft, hright])
    | assign name =>
      unfold body
      exact Reading.Gives.after_report ihc _ _

end Tree

/-! ## Statements -/

namespace Statement

def Sound : Statement → Prop
  | definition _ _ body => body.Gives Grammar.WellNested
  | stray _ => True

variable {table : SymbolTable Grammar} {statement : Statement} {statements : List Statement}

theorem gives_addTo (ht : ∀ entry ∈ table, entry.2.WellNested) (hs : statement.Sound) :
    (addTo table statement).Gives fun table => ∀ entry ∈ table, entry.2.WellNested := by
  cases statement with
  | definition name pos body =>
    refine Reading.Gives.bind hs fun g hg => ?_
    split
    · exact Reading.Gives.after_report (.pure ht) _ _
    · refine .pure ?_
      intro entry he
      rcases SymbolTable.mem_of_mem_insert he with rfl | he
      · exact hg
      · exact ht entry he
  | stray pos => exact Reading.Gives.after_report (.pure ht) _ _

theorem gives_foldlM_addTo (ht : ∀ entry ∈ table, entry.2.WellNested) (hs : ∀ statement ∈ statements, statement.Sound) :
    (statements.foldlM addTo table).Gives fun table => ∀ entry ∈ table, entry.2.WellNested := by
  induction statements generalizing table with
  | nil => exact .pure ht
  | cons statement rest ih =>
    obtain ⟨hfirst, hrest⟩ := List.forall_mem_cons.mp hs
    rw [List.foldlM_cons]
    exact (gives_addTo ht hfirst).bind fun table' ht' => ih ht' hrest

/-- Statements that define well nested grammars make up a collection that is. -/
theorem gives_grammarOf (pos : Option Position) (hs : ∀ statement ∈ statements, statement.Sound) :
    (grammarOf pos statements).Gives fun g => g.isNestedTable = true ∧ g.WellNested := by
  have hnone : ∀ entry ∈ ([] : SymbolTable Grammar), entry.2.WellNested := by
    intro entry he
    cases he
  exact (gives_foldlM_addTo hnone hs).bind fun table ht => .pure ⟨rfl, .collection _ ht⟩

end Statement

namespace Tree

@[simp] theorem allStatements_eq (scope : List String) (trees : List Tree) :
    allStatements scope trees = trees.flatMap (statements scope) := by
  induction trees with
  | nil => rfl
  | cons tree rest ih => rw [allStatements, ih, List.flatMap_cons]

/-- All that a tree states, and what it is as the definition of a symbol, is well nested. The two go together, since
either may hold the other. -/
theorem sound_statements (tree : Tree) (scope : List String) :
    (∀ statement ∈ tree.statements scope, statement.Sound) ∧ (tree.definiens scope).Gives Grammar.WellNested := by
  induction tree generalizing scope with
  | empty =>
    constructor
    · intro statement h
      cases h
    · exact (gives_body (String.intercalate "." scope) .empty).imp fun _ h => .plain h
  | grid content =>
    constructor
    · intro statement h
      rw [List.mem_singleton.mp h]
      trivial
    · exact (gives_body (String.intercalate "." scope) (.grid content)).imp fun _ h => .plain h
  | collection cell name children ih =>
    have hall : ∀ path, (Statement.grammarOf (some cell.pos) (allStatements path children)).Gives
        Grammar.WellNested := by
      intro path
      have hsound : ∀ statement ∈ allStatements path children, statement.Sound := by
        intro statement h
        rw [allStatements_eq] at h
        obtain ⟨tree, ht, h⟩ := List.mem_flatMap.mp h
        exact (ih tree ht path).1 statement h
      exact (Statement.gives_grammarOf (some cell.pos) hsound).imp fun _ h => h.2
    constructor
    · intro statement h
      rw [statements] at h
      rw [List.mem_singleton.mp h]
      exact hall _
    · exact hall scope
  | op cell operator sibling child ihs ihc =>
    constructor
    · intro statement h
      cases operator with
      | assign name =>
        rw [statements] at h
        rcases List.mem_append.mp h with h | h
        · exact (ihs scope).1 statement h
        · rw [List.mem_singleton.mp h]
          exact (ihc (scope ++ [name])).2
      | _ =>
        rw [List.mem_singleton.mp h]
        trivial
    · exact (gives_body (String.intercalate "." scope) (.op cell operator sibling child)).imp fun _ h => .plain h

/-- A workbook is read as a well nested collection, and its tests are rows of literals. -/
theorem gives_grammar (tree : Tree) : tree.grammar.Gives fun g => g.isNestedTable = true ∧ g.WellNested := by
  cases tree with
  | collection cell name children =>
    refine Statement.gives_grammarOf _ ?_
    intro statement h
    rw [allStatements_eq] at h
    obtain ⟨tree, -, h⟩ := List.mem_flatMap.mp h
    exact (sound_statements tree []).1 statement h
  | _ => exact Statement.gives_grammarOf _ (sound_statements _ []).1

end Tree

end Sheet

end SheetGrammar
