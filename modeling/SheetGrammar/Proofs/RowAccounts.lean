import SheetGrammar.Proofs.QuietRuns

/-!
Where the rows of a sheet go. A row under a test is a test case; any other row is a sequence in the grammar. Content is
left out in many places: above a table, in a collection that stands where a grammar is due, in a second definition of a
symbol, under a test that is no grid. Each of them says so, and where none does the account is exact: every row comes
out once, where it belongs and in the order of the sheet.

- `Tree.grids`: all grids of a tree, each with whether it stands directly under a test.
- `Reading.Lossless`: nothing is reported to be left out.
- `Reading.Accounts`: what is read has the sequences and the tests that are due, or reports that something is left out.
- `Statement.Account`: the same of statements, whatever table they are added to. It is kept by putting statements one
  after the other (`Account.append`).
- `Tree.accounts_body`, `Tree.account_statements`: the step from the parts of a tree to the tree.
- `Tree.rows_accounted`: the whole sheet.
-/

namespace SheetGrammar

def Finding.leavesOut : Finding → Bool
  | unassignedContent | misplacedCollection _ | duplicateSymbol _ => true
  | _ => false

theorem Message.isSevere_of_leavesOut {message : Message} (h : message.finding.leavesOut = true) :
    message.isSevere = true := by
  obtain ⟨finding, pos⟩ := message
  cases finding with
  | unassignedContent => rfl
  | misplacedCollection name => rfl
  | duplicateSymbol name => rfl
  | _ => cases h

namespace Grammar

def isSequence : Grammar → Bool
  | combine _ .sequence _ => true
  | _ => false

def sequences (g : Grammar) : List (Option Position) := (g.nodes.filter isSequence).map pos

theorem sequences_eq (g : Grammar) :
    g.sequences = (if g.isSequence then [g.pos] else []) ++ g.children.flatMap sequences := by
  rw [sequences, nodes_eq, List.filter_cons, List.filter_flatMap]
  split
  · rw [List.map_cons, List.map_flatMap]; rfl
  · rw [List.map_flatMap]; rfl

theorem sequences_sequence (m : Mark) (parts : List Grammar) :
    (combine m .sequence parts).sequences = m.pos :: parts.flatMap sequences := sequences_eq _

@[simp] theorem sequences_alternation (m : Mark) (parts : List Grammar) :
    (combine m .alternation parts).sequences = parts.flatMap sequences := sequences_eq _

@[simp] theorem sequences_table (m : Mark) (scoping : Scoping) (entries : List (String × Grammar)) :
    (table m scoping entries).sequences = entries.flatMap (·.2.sequences) :=
  (sequences_eq _).trans (List.flatMap_map ..)

@[simp] theorem sequences_relabel (m : Mark) (how : Relabelling) (body : Grammar) :
    (relabel m how body).sequences = body.sequences :=
  (sequences_eq _).trans (List.flatMap_singleton ..)

@[simp] theorem sequences_epsilon (m : Mark) : (epsilon m).sequences = [] := rfl

end Grammar

namespace Sheet

namespace Tree

mutual

/-- All grids of a tree, those above an operator before those under it. Each comes with whether it stands directly
under a test; `tested` tells this of the tree itself. -/
def grids (tested : Bool) : Tree → List (Grid × Bool)
  | op _ operator sibling child => sibling.grids false ++ child.grids operator.isTest
  | grid content => [(content, tested)]
  | collection _ _ children => allGrids children
  | empty => []

def allGrids : List Tree → List (Grid × Bool)
  | [] => []
  | tree :: rest => tree.grids false ++ allGrids rest

end

@[simp] theorem allGrids_eq (trees : List Tree) : allGrids trees = trees.flatMap (grids false) := by
  induction trees with
  | nil => rfl
  | cons tree rest ih => rw [allGrids, ih, List.flatMap_cons]

end Tree

/-- The positions of the rows of those grids that stand under a test, or of those that do not. -/
def rowsWhere (tested : Bool) (grids : List (Grid × Bool)) : List (Option Position) :=
  (grids.filter (·.2 == tested)).flatMap fun entry => entry.1.rows.map fun row => some row.pos

@[simp] theorem rowsWhere_nil (tested : Bool) : rowsWhere tested [] = [] := rfl

@[simp] theorem rowsWhere_append (tested : Bool) (first second : List (Grid × Bool)) :
    rowsWhere tested (first ++ second) = rowsWhere tested first ++ rowsWhere tested second := by
  simp [rowsWhere]

/-! ## Readings that account for grids -/

namespace Reading

variable {α β : Type} {r : Reading α} {f : α → Reading β}

/-- Not an instance: as one it would have `simp` rewrite readings to maps, of which it knows no messages and tests. -/
theorem lawful : LawfulMonad Reading :=
  LawfulMonad.mk' Reading
    (fun r => by cases r; simp [Functor.map])
    (fun a f => by cases h : f a; simp [bind, pure, h])
    (fun r f g => by simp [bind])

def Lossless (r : Reading α) : Prop := ∀ message ∈ r.messages, message.finding.leavesOut = false

theorem lossless_bind : (r >>= f).Lossless ↔ r.Lossless ∧ (f r.value).Lossless := by
  simp only [Lossless, bind_messages, List.mem_append, or_imp, forall_and]

/-- A report of content that is left out. -/
theorem not_lossless_report {finding : Finding} (hfinding : finding.leavesOut = true) (pos : Option Position) :
    ¬(report finding pos).Lossless := by
  intro h
  have hmem := h ⟨finding, pos⟩ (List.mem_singleton_self _)
  rw [hfinding] at hmem
  cases hmem

/-- If nothing is reported to be left out, the value has the sequences of the rows that are due, and the tests are
those of the rows that are. -/
def Accounts (r : Reading Grammar) (grids : List (Grid × Bool)) : Prop :=
  r.Lossless → r.value.sequences = rowsWhere false grids ∧ r.tests.map (·.pos) = rowsWhere true grids

/-- Where something is left out, there is nothing to account for. -/
theorem accounts_after_report {next : Unit → Reading Grammar} {grids : List (Grid × Bool)} {finding : Finding}
    (hfinding : finding.leavesOut = true) (pos : Option Position) : (report finding pos >>= next).Accounts grids := by
  intro h
  exact absurd (lossless_bind.mp h).1 (not_lossless_report hfinding pos)

/-- Other reports make no difference. -/
theorem Accounts.after_report {next : Reading Grammar} {grids : List (Grid × Bool)} (h : next.Accounts grids)
    (finding : Finding) (pos : Option Position) : (report finding pos >>= fun _ => next).Accounts grids := by
  intro hlossless
  exact h (lossless_bind.mp hlossless).2

theorem accounts_epsilon (m : Mark) : (pure (.epsilon m) : Reading Grammar).Accounts [] := fun _ => ⟨rfl, rfl⟩

end Reading

/-! ## Grids -/

/-- A cell is no row: what it gives has no sequence in it. -/
theorem Header.sequences_grammar {header : Header} {cell : Cell} {g : Grammar} (h : header.grammar cell = some g) :
    g.sequences = [] := by
  induction header with
  | tape name => cases h; rfl
  | unique inner ih => exact ih h
  | embed => cases h; rfl
  | rename source target => cases h; rfl
  | choice name =>
    cases h
    rw [Grammar.sequences_relabel, Grammar.sequences_alternation, List.flatMap_eq_nil_iff]
    intro g hg
    obtain ⟨piece, -, rfl⟩ := List.mem_map.mp hg
    rfl
  | comment => cases h

namespace Grid

theorem sequences_rowGrammar (grid : Grid) (row : Row) : (grid.rowGrammar row).sequences = [some row.pos] := by
  rw [rowGrammar, Grammar.sequences_sequence, List.cons_eq_cons, List.flatMap_eq_nil_iff]
  refine ⟨rfl, ?_⟩
  intro g hg
  obtain ⟨⟨column, cell⟩, -, hc⟩ := List.mem_filterMap.mp hg
  exact Header.sequences_grammar hc

/-- Read as a grammar, a grid is one sequence for each of its rows. -/
theorem accounts_grammar (grid : Grid) : grid.grammar.Accounts [(grid, false)] := by
  intro _
  by_cases hrows : grid.rows.isEmpty = true
  · have hnone : grid.rows = [] := List.isEmpty_iff.mp hrows
    simp [grammar, rowsWhere, hnone, Reading.report]
  · have hsequences :
        (grid.rows.map grid.rowGrammar).flatMap Grammar.sequences = grid.rows.map fun row => some row.pos := by
      rw [List.flatMap_map, List.map_eq_flatMap]
      simp only [sequences_rowGrammar]
    simp [grammar, hrows, rowsWhere, hsequences, Reading.reportAll]

/-- As a test, it is one test for each. -/
theorem tests_pos (grid : Grid) (symbol : String) (negated : Bool) :
    (grid.tests symbol negated).map (·.pos) = rowsWhere true [(grid, true)] := by
  simp [tests, rowsWhere]

end Grid

/-! ## Trees -/

namespace Tree

open Reading

/-- Under a test stands a grid, nothing, or something that is left out. -/
theorem account_testsIn (symbol : String) (cell : Cell) (negated : Bool) (child : Tree)
    (h : (body.testsIn symbol cell negated child).Lossless) :
    rowsWhere false (child.grids true) = [] ∧
      (body.testsIn symbol cell negated child).tests.map (·.pos) = rowsWhere true (child.grids true) := by
  cases child with
  | grid content => exact ⟨rfl, content.tests_pos symbol negated⟩
  | empty => exact ⟨rfl, rfl⟩
  | _ => exact absurd h (not_lossless_report rfl _)

end Tree

/-- What is tested, with the tests under the operator. -/
theorem Reading.Accounts.tested {symbol : String} {cell : Cell} {negated : Bool} {child : Tree}
    {tested : Reading Grammar} {above : List (Grid × Bool)} (h : tested.Accounts above) :
    (tested >>= fun g => do
      Tree.body.testsIn symbol cell negated child
      return g).Accounts (above ++ child.grids true) := by
  intro hlossless
  obtain ⟨hfirst, hrest⟩ := lossless_bind.mp hlossless
  obtain ⟨hplain, htests⟩ := child.account_testsIn symbol cell negated (lossless_bind.mp hrest).1
  obtain ⟨hsequences, habove⟩ := h hfirst
  simp only [bind_value, bind_tests, pure_value, pure_tests, rowsWhere_append, List.map_append, hplain, htests,
    hsequences, habove, List.append_nil, and_self]

namespace Tree

open Reading

theorem isEmpty_iff {tree : Tree} : tree.isEmpty = true ↔ tree = .empty := by
  cases tree <;> simp [isEmpty]

/-- The content of a symbol accounts for all its grids. -/
theorem accounts_body (symbol : String) (tree : Tree) : (tree.body symbol).Accounts (tree.grids false) := by
  induction tree with
  | empty => exact accounts_epsilon _
  | grid content => exact content.accounts_grammar
  | collection cell name children => exact accounts_after_report rfl _
  | op cell operator sibling child ihs ihc =>
    cases operator with
    | table =>
      have hchild : (if child.isEmpty then do
            Reading.report .emptyTable (some cell.pos)
            return .epsilon (.ofPos (some cell.pos))
          else child.body symbol : Reading Grammar).Accounts (child.grids false) := by
        split
        · next hempty =>
          rw [isEmpty_iff.mp hempty]
          exact (accounts_epsilon _).after_report _ _
        · exact ihc
      unfold body
      dsimp only
      split
      · next hempty =>
        rw [isEmpty_iff.mp hempty]
        exact hchild
      · exact accounts_after_report rfl _
    | test =>
      unfold body
      dsimp only
      split
      · next hempty =>
        rw [isEmpty_iff.mp hempty]
        exact ((accounts_epsilon _).after_report _ _).tested
      · exact ihs.tested
    | testNot =>
      unfold body
      dsimp only
      split
      · next hempty =>
        rw [isEmpty_iff.mp hempty]
        exact ((accounts_epsilon _).after_report _ _).tested
      · exact ihs.tested
    | or =>
      intro hlossless
      obtain ⟨hleft, hrest⟩ := lossless_bind.mp hlossless
      obtain ⟨hsequences, htests⟩ := ihs hleft
      obtain ⟨hsequences', htests'⟩ := ihc (lossless_bind.mp hrest).1
      simp [body, grids, Operator.isTest, hsequences, htests, hsequences', htests']
    | assign name => exact accounts_after_report rfl _

end Tree

/-! ## Statements -/

namespace Statement

variable {first second statements : List Statement} {grids above : List (Grid × Bool)}

/-- Added to whatever table, the statements account for the grids, or report that something is left out. -/
def Account (statements : List Statement) (grids : List (Grid × Bool)) : Prop :=
  ∀ table, (statements.foldlM addTo table).Lossless →
    (statements.foldlM addTo table).value.flatMap (·.2.sequences) =
      table.flatMap (·.2.sequences) ++ rowsWhere false grids ∧
      (statements.foldlM addTo table).tests.map (·.pos) = rowsWhere true grids

theorem foldlM_addTo_append (table : SymbolTable Grammar) :
    (first ++ second).foldlM addTo table = first.foldlM addTo table >>= second.foldlM addTo :=
  have := Reading.lawful
  List.foldlM_append

theorem foldlM_addTo_singleton (table : SymbolTable Grammar) (statement : Statement) :
    [statement].foldlM addTo table = addTo table statement := by
  have := Reading.lawful
  simp only [List.foldlM_cons, List.foldlM_nil, bind_pure]

theorem account_nil : Account [] [] := by
  intro table _
  simp

theorem Account.append (hfirst : Account first above) (hsecond : Account second grids) :
    Account (first ++ second) (above ++ grids) := by
  intro table h
  rw [foldlM_addTo_append] at h ⊢
  obtain ⟨hkept, hrest⟩ := Reading.lossless_bind.mp h
  obtain ⟨hsequences, htests⟩ := hfirst table hkept
  obtain ⟨hsequences', htests'⟩ := hsecond _ hrest
  rw [Reading.bind_value, Reading.bind_tests, hsequences', hsequences, List.map_append, htests, htests']
  simp

/-- A definition that is kept adds what its body holds. -/
theorem account_definition {name : String} {pos : Position} {body : Reading Grammar} (h : body.Accounts grids) :
    Account [.definition name pos body] grids := by
  intro table hlossless
  rw [foldlM_addTo_singleton] at hlossless ⊢
  obtain ⟨hbody, hrest⟩ := Reading.lossless_bind.mp hlossless
  obtain ⟨hsequences, htests⟩ := h hbody
  by_cases hc : table.contains name = true
  · rw [if_pos hc] at hrest
    exact absurd (Reading.lossless_bind.mp hrest).1 (Reading.not_lossless_report rfl _)
  · have hinsert : table.insert name body.value = table ++ [(name, body.value)] :=
      SymbolTable.insert_of_not_contains (Bool.eq_false_iff.mpr hc) body.value
    simp [addTo, hc, hinsert, hsequences, htests]

theorem account_stray (pos : Option Position) : Account [.stray pos] grids := by
  intro table h
  rw [foldlM_addTo_singleton] at h
  exact absurd (Reading.lossless_bind.mp h).1 (Reading.not_lossless_report rfl pos)

/-- Statements that account for grids make up a collection that does. -/
theorem Account.accounts_grammarOf (h : Account statements grids) (pos : Option Position) :
    (grammarOf pos statements).Accounts grids := by
  intro hlossless
  obtain ⟨hsequences, htests⟩ := h [] (Reading.lossless_bind.mp hlossless).1
  rw [grammarOf, Reading.bind_value, Reading.bind_tests, Reading.pure_value, Reading.pure_tests, List.append_nil,
    Grammar.sequences_table, tableOf]
  exact ⟨hsequences, htests⟩

end Statement

namespace Tree

/-- If each tree accounts for its grids, all of them do. -/
theorem account_allStatements {scope : List String} {trees : List Tree}
    (h : ∀ tree ∈ trees, Statement.Account (tree.statements scope) (tree.grids false)) :
    Statement.Account (allStatements scope trees) (allGrids trees) := by
  induction trees with
  | nil => exact Statement.account_nil
  | cons tree rest ih =>
    obtain ⟨hfirst, hrest⟩ := List.forall_mem_cons.mp h
    exact hfirst.append (ih hrest)

/-- All that a tree states, and what it is as the definition of a symbol, accounts for its grids. The two go together,
since either may hold the other. -/
theorem account_statements (tree : Tree) (scope : List String) :
    Statement.Account (tree.statements scope) (tree.grids false) ∧
      (tree.definiens scope).Accounts (tree.grids false) := by
  induction tree generalizing scope with
  | empty => exact ⟨Statement.account_nil, accounts_body (String.intercalate "." scope) .empty⟩
  | grid content => exact ⟨Statement.account_stray _, accounts_body (String.intercalate "." scope) (.grid content)⟩
  | collection cell name children ih =>
    have hchildren (path : List String) :
        (Statement.grammarOf (some cell.pos) (allStatements path children)).Accounts (allGrids children) :=
      (account_allStatements fun tree ht => (ih tree ht path).1).accounts_grammarOf _
    exact ⟨Statement.account_definition (hchildren _), hchildren scope⟩
  | op cell operator sibling child ihs ihc =>
    refine ⟨?_, accounts_body (String.intercalate "." scope) (.op cell operator sibling child)⟩
    cases operator with
    | assign name => exact (ihs scope).1.append (Statement.account_definition (ihc (scope ++ [name])).2)
    | _ => exact Statement.account_stray _

theorem accounts_grammar (tree : Tree) : tree.grammar.Accounts (tree.grids false) := by
  cases tree with
  | collection cell name children =>
    exact (account_allStatements fun tree _ => (account_statements tree []).1).accounts_grammarOf _
  | _ => exact (account_statements _ []).1.accounts_grammarOf _

/-- Reading loses no row silently. If nothing is reported to be left out, the sequences of the grammar are the rows of
the grids that do not stand directly under a test, and the tests are the rows of those that do: each once, and in the
order of the sheet. -/
theorem rows_accounted (tree : Tree) (keepInfo : Bool)
    (hkept : ∀ message ∈ (tree.grammarStage { keepInfo }).2.messages, message.finding.leavesOut = false) :
    ∃ g, (tree.grammarStage { keepInfo }).1 = .ok g ∧ g.sequences = rowsWhere false (tree.grids false) ∧
      (tree.grammarStage { keepInfo }).2.tests.map (·.pos) = rowsWhere true (tree.grids false) := by
  have hlossless : tree.grammar.Lossless := by
    intro message hmem
    by_contra hleft
    have hsevere := Message.isSevere_of_leavesOut (Bool.eq_true_of_not_eq_false hleft)
    have hreported : message ∈ (tree.grammarStage { keepInfo }).2.messages := by
      show message ∈ (Log.reportAll _ _).messages
      rw [Log.messages_reportAll]
      exact List.mem_append_right _ (List.mem_filter.mpr ⟨hmem, Log.keeps_of_isSevere _ hsevere⟩)
    exact hleft (hkept message hreported)
  obtain ⟨hsequences, htests⟩ := tree.accounts_grammar hlossless
  refine ⟨_, rfl, hsequences, ?_⟩
  simpa [grammarStage, Log.addTests] using htests

/-- With grids on both sides of `or`, tests of tests, a collection that a name is assigned to, and a grid without
rows. -/
theorem rows_accounted_tests :
    let place (row : UInt64) : Position := ⟨"Sheet", row, 0⟩
    let cell (text : String) : Cell := ⟨text, ⟨"Sheet", 0, 1⟩⟩
    let grid (rows : List UInt64) : Tree :=
      .grid ⟨cell "", [⟨.unique (.tape "text"), ⟨"Sheet", 0, 2⟩⟩], rows.map fun row =>
        ⟨place row, [⟨"run", place row⟩]⟩⟩
    let either : Tree := .op (cell "or") .or (grid [1, 2]) (.op (cell "table") .table .empty (grid [3]))
    let tested : Tree := .op (cell "testnot") .testNot (.op (cell "test") .test either (grid [4, 5])) (grid [6])
    let verbs : Tree := .collection (cell "") "" [.op (cell "verb") (.assign "verb") .empty tested]
    let workbook : Tree := .collection (cell "") ""
      [.op (cell "noun") (.assign "noun") (.op (cell "Verbs") (.assign "Verbs") .empty verbs) (grid [7]),
        .op (cell "none") (.assign "none") .empty (grid [])]
    (∀ message ∈ (workbook.grammarStage { keepInfo := true }).2.messages, message.finding.leavesOut = false) ∧
      rowsWhere false (workbook.grids false) = [some (place 1), some (place 2), some (place 3), some (place 7)] ∧
      rowsWhere true (workbook.grids false) = [some (place 4), some (place 5), some (place 6)] ∧
      ∃ g, (workbook.grammarStage { keepInfo := true }).1 = .ok g ∧
        g.sequences = rowsWhere false (workbook.grids false) ∧
        (workbook.grammarStage { keepInfo := true }).2.tests.map (·.pos) = rowsWhere true (workbook.grids false) := by
  intro place cell grid either tested verbs workbook
  have hkept :
      ∀ message ∈ (workbook.grammarStage { keepInfo := true }).2.messages, message.finding.leavesOut = false := by
    decide +kernel
  exact ⟨hkept, by decide +kernel, by decide +kernel, rows_accounted workbook true hkept⟩

end Tree

end Sheet

end SheetGrammar
