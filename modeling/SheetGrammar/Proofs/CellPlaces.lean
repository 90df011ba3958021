import SheetGrammar.Proofs.QuietRuns

/-!
Where the parts of a sheet stand. Whatever is said while a sheet is read is said about a cell, a header or a row of it,
and the grammar that the sheet is read as keeps these positions in its nodes. One kind of node has none: the epsilon
that stands for content that is not there.

- `Tree.places`: the positions of all cells, headers and rows of a tree.
- `Grammar.Sourced`: every node is at one of some places, or is an epsilon without a mark.
- `Reading.Stays`: a reading with messages at some places and a value with a property; `Stays.bind` passes the places
  on.
- `Statement.Stands`: a statement that is made at one of the places, and defines what stays there.
- `Tree.stays_body`, `Tree.stays_statements`: the content of a symbol, and a statement, stay where they are written.
- `Tree.stays_grammar`: so a workbook stays at its own places.
-/

namespace SheetGrammar

def At (places : List Position) (pos : Option Position) : Prop := ∃ place ∈ places, pos = some place

instance (places : List Position) (pos : Option Position) : Decidable (At places pos) :=
  inferInstanceAs (Decidable (∃ place ∈ places, pos = some place))

section Places

variable {places others : List Position}

theorem at_some {place : Position} (h : place ∈ places) : At places (some place) := ⟨place, h, rfl⟩

theorem At.mono {pos : Option Position} (h : At places pos) (hsub : places ⊆ others) : At others pos := by
  obtain ⟨place, hplace, hpos⟩ := h
  exact ⟨place, hsub hplace, hpos⟩

/-- Every node is at one of the places, or is an epsilon for content that is not there. -/
def Grammar.Sourced (places : List Position) (g : Grammar) : Prop := ∀ n ∈ g.nodes, n = .epsilon {} ∨ At places n.pos

theorem Grammar.Sourced.mono {g : Grammar} (h : g.Sourced places) (hsub : places ⊆ others) : g.Sourced others :=
  fun n hn => (h n hn).imp_right fun hpos => hpos.mono hsub

theorem Grammar.sourced_epsilon {pos : Option Position} (h : pos = none ∨ At places pos) :
    (Grammar.epsilon (.ofPos pos)).Sourced places := by
  intro n hn
  rw [List.mem_singleton.mp hn]
  rcases h with rfl | h
  · exact .inl rfl
  · exact .inr h

end Places

namespace Sheet

/-! ## Readings that stay at some places -/

namespace Reading

variable {α β : Type} {places others : List Position} {P : α → Prop} {Q : β → Prop} {r : Reading α} {f : α → Reading β}

structure Stays (places : List Position) (P : α → Prop) (r : Reading α) : Prop where
  value : P r.value
  messages : ∀ message ∈ r.messages, At places message.pos

theorem Stays.pure {a : α} (h : P a) : Stays places P (pure a) := ⟨h, fun _ hmem => nomatch hmem⟩

theorem Stays.bind (hr : r.Stays places P) (hf : ∀ a, P a → (f a).Stays places Q) : (r >>= f).Stays places Q := by
  obtain ⟨hvalue, hmessages⟩ := hf r.value hr.value
  refine ⟨hvalue, ?_⟩
  intro message hmem
  rw [bind_messages, List.mem_append] at hmem
  exact hmem.elim (hr.messages message) (hmessages message)

theorem stays_report {pos : Option Position} (finding : Finding) (h : At places pos) :
    (report finding pos).Stays places fun _ => True := by
  refine ⟨trivial, ?_⟩
  intro message hmem
  rw [List.mem_singleton.mp hmem]
  exact h

theorem stays_reportAll {messages : List Message} (h : ∀ message ∈ messages, At places message.pos) :
    (reportAll messages).Stays places fun _ => True := ⟨trivial, h⟩

theorem stays_ask (tests : List TestCase) :
    (ask tests).Stays places fun _ => True := ⟨trivial, fun _ hmem => nomatch hmem⟩

/-- What is reported first, at one of the places, is all that is added. -/
theorem Stays.after_report {pos : Option Position} {next : Reading β} (h : next.Stays places Q) (finding : Finding)
    (hpos : At places pos) : (do report finding pos; next).Stays places Q :=
  (stays_report finding hpos).bind fun _ _ => h

theorem Stays.widen {r : Reading Grammar} (h : r.Stays places (Grammar.Sourced places)) (hsub : places ⊆ others) :
    r.Stays others (Grammar.Sourced others) :=
  ⟨h.value.mono hsub, fun message hmem => (h.messages message hmem).mono hsub⟩

end Reading

/-! ## Grids -/

theorem Row.mem_of_cell? {row : Row} {index : Nat} {cell : Cell} (h : row.cell? index = some cell) : cell ∈ row.cells :=
  List.mem_of_getElem? (Option.filter_eq_some_iff.mp h).1

theorem Header.pos_of_mem_nodes_grammar {header : Header} {cell : Cell} {g n : Grammar}
    (h : header.grammar cell = some g) (hn : n ∈ g.nodes) : n.pos = some cell.pos := by
  induction header with
  | tape name =>
    cases h
    rw [List.mem_singleton.mp hn]
    rfl
  | unique inner ih => exact ih h
  | embed =>
    cases h
    rw [List.mem_singleton.mp hn]
    rfl
  | rename source target =>
    cases h
    rcases Grammar.mem_nodes_relabel.mp hn with rfl | hn
    · rfl
    · rw [List.mem_singleton.mp hn]
      rfl
  | choice name =>
    cases h
    rcases Grammar.mem_nodes_relabel.mp hn with rfl | hn
    · rfl
    · rcases Grammar.mem_nodes_combine.mp hn with rfl | ⟨piece, hpiece, hn⟩
      · rfl
      · obtain ⟨text, -, rfl⟩ := List.mem_map.mp hpiece
        rw [List.mem_singleton.mp hn]
        rfl
  | comment => cases h

namespace Grid

def places (grid : Grid) : List Position :=
  grid.cell.pos :: (grid.columns.map (·.pos) ++ grid.rows.flatMap fun row => row.pos :: row.cells.map (·.pos))

variable {grid : Grid} {row : Row}

theorem cell_mem_places (grid : Grid) : grid.cell.pos ∈ grid.places := List.mem_cons_self

theorem column_mem_places {column : Column} (h : column ∈ grid.columns) : column.pos ∈ grid.places :=
  List.mem_cons_of_mem _ (List.mem_append_left _ (List.mem_map_of_mem h))

theorem row_mem_places (h : row ∈ grid.rows) : row.pos ∈ grid.places :=
  List.mem_cons_of_mem _ (List.mem_append_right _ (List.mem_flatMap.mpr ⟨row, h, List.mem_cons_self⟩))

theorem mem_places_of_cell? (h : row ∈ grid.rows) {index : Nat} {cell : Cell} (hcell : row.cell? index = some cell) :
    cell.pos ∈ grid.places := by
  have hmem : cell.pos ∈ row.pos :: row.cells.map (·.pos) :=
    List.mem_cons_of_mem _ (List.mem_map_of_mem (Row.mem_of_cell? hcell))
  exact List.mem_cons_of_mem _ (List.mem_append_right _ (List.mem_flatMap.mpr ⟨row, h, hmem⟩))

theorem at_of_mem_nodes_rowGrammar (h : row ∈ grid.rows) {n : Grammar} (hn : n ∈ (grid.rowGrammar row).nodes) :
    At grid.places n.pos := by
  rcases Grammar.mem_nodes_combine.mp hn with rfl | ⟨g, hg, hn⟩
  · exact at_some (row_mem_places h)
  · obtain ⟨⟨column, cell⟩, hcell, hg⟩ := List.mem_filterMap.mp hg
    obtain ⟨⟨_, index⟩, -, hfound⟩ := List.mem_filterMap.mp hcell
    obtain ⟨found, hfound, hpair⟩ := Option.map_eq_some_iff.mp hfound
    cases hpair
    rw [Header.pos_of_mem_nodes_grammar hg hn]
    exact at_some (mem_places_of_cell? h hfound)

theorem mem_of_mem_repeated {seen : List String} {cells : List Cell} {cell : Cell} (h : cell ∈ repeated seen cells) :
    cell ∈ cells := by
  induction cells generalizing seen with
  | nil => cases h
  | cons first rest ih =>
    unfold repeated at h
    split at h
    · rcases List.mem_cons.mp h with rfl | h
      · exact List.mem_cons_self
      · exact List.mem_cons_of_mem _ (ih h)
    · exact List.mem_cons_of_mem _ (ih h)

theorem at_of_mem_duplicates {message : Message} (h : message ∈ grid.duplicates) : At grid.places message.pos := by
  obtain ⟨⟨column, index⟩, -, h⟩ := List.mem_flatMap.mp h
  dsimp only at h
  split at h
  · obtain ⟨cell, hcell, rfl⟩ := List.mem_map.mp h
    obtain ⟨row, hrow, hcell⟩ := List.mem_filterMap.mp (mem_of_mem_repeated hcell)
    exact at_some (mem_places_of_cell? hrow hcell)
  · cases h

theorem stays_grammar (grid : Grid) : grid.grammar.Stays grid.places (Grammar.Sourced grid.places) := by
  have hcell : At grid.places (some grid.cell.pos) := at_some grid.cell_mem_places
  unfold grammar
  dsimp only
  split
  · exact Reading.Stays.after_report (.pure (Grammar.sourced_epsilon (.inr hcell))) _ hcell
  · refine (Reading.stays_reportAll fun _ => at_of_mem_duplicates).bind fun _ _ => .pure ?_
    intro n hn
    rcases Grammar.mem_nodes_combine.mp hn with rfl | ⟨g, hg, hn⟩
    · exact .inr hcell
    · obtain ⟨row, hrow, rfl⟩ := List.mem_map.mp hg
      exact .inr (at_of_mem_nodes_rowGrammar hrow hn)

end Grid

/-! ## Trees -/

namespace Tree

mutual

def places : Tree → List Position
  | op cell _ sibling child => cell.pos :: (sibling.places ++ child.places)
  | grid content => content.places
  | collection cell _ children => cell.pos :: placesOfAll children
  | empty => []

def placesOfAll : List Tree → List Position
  | [] => []
  | tree :: rest => tree.places ++ placesOfAll rest

end

@[simp] theorem placesOfAll_eq (trees : List Tree) : placesOfAll trees = trees.flatMap places := by
  induction trees with
  | nil => rfl
  | cons tree rest ih => rw [placesOfAll, ih, List.flatMap_cons]

section Parts

variable {cell : Cell} {operator : Operator} {sibling child tree : Tree} {name : String} {children : List Tree}

theorem cell_mem_places_op : cell.pos ∈ (op cell operator sibling child).places := by
  rw [places]
  exact List.mem_cons_self

theorem sibling_places_subset : sibling.places ⊆ (op cell operator sibling child).places := by
  rw [places]
  exact fun _ h => List.mem_cons_of_mem _ (List.mem_append_left _ h)

theorem child_places_subset : child.places ⊆ (op cell operator sibling child).places := by
  rw [places]
  exact fun _ h => List.mem_cons_of_mem _ (List.mem_append_right _ h)

theorem cell_mem_places_collection : cell.pos ∈ (collection cell name children).places := by
  rw [places]
  exact List.mem_cons_self

theorem member_places_subset (h : tree ∈ children) : tree.places ⊆ (collection cell name children).places := by
  rw [places, placesOfAll_eq]
  exact fun _ hpos => List.mem_cons_of_mem _ (List.mem_flatMap.mpr ⟨tree, h, hpos⟩)

end Parts

theorem at_pos? {tree : Tree} (h : tree ≠ .empty) : At tree.places tree.pos? := by
  cases tree with
  | op cell operator sibling child => exact at_some cell_mem_places_op
  | grid content => exact at_some content.cell_mem_places
  | collection cell name children => exact at_some cell_mem_places_collection
  | empty => exact absurd rfl h

/-! ## The content of a symbol -/

theorem stays_testsIn {places : List Position} (symbol : String) {cell : Cell} (negated : Bool) {tree : Tree}
    (hcell : At places (some cell.pos)) (hsub : tree.places ⊆ places) :
    (body.testsIn symbol cell negated tree).Stays places fun _ => True := by
  cases tree with
  | grid content => exact Reading.stays_ask _
  | empty => exact Reading.stays_report _ hcell
  | op cell operator sibling child => exact Reading.stays_report _ (at_some (hsub cell_mem_places_op))
  | collection cell name children => exact Reading.stays_report _ (at_some (hsub cell_mem_places_collection))

/-- The tests under an operator change nothing about what is tested. -/
theorem stays_tested {places : List Position} {symbol : String} {cell : Cell} {negated : Bool} {child : Tree}
    {tested : Reading Grammar} (h : tested.Stays places (Grammar.Sourced places)) (hcell : At places (some cell.pos))
    (hsub : child.places ⊆ places) :
    (tested >>= fun g => do
      body.testsIn symbol cell negated child
      return g).Stays places (Grammar.Sourced places) :=
  h.bind fun _ hg => (stays_testsIn symbol negated hcell hsub).bind fun _ _ => .pure hg

theorem stays_body (symbol : String) (tree : Tree) :
    (tree.body symbol).Stays tree.places (Grammar.Sourced tree.places) := by
  induction tree with
  | empty => exact .pure (Grammar.sourced_epsilon (.inl rfl))
  | grid content => exact content.stays_grammar
  | collection cell name children =>
    have hcell : At (collection cell name children).places (some cell.pos) := at_some cell_mem_places_collection
    exact Reading.Stays.after_report (.pure (Grammar.sourced_epsilon (.inr hcell))) _ hcell
  | op cell operator sibling child ihs ihc =>
    let here := (op cell operator sibling child).places
    have hcell : At here (some cell.pos) := at_some cell_mem_places_op
    have hsibling : (sibling.body symbol).Stays here (Grammar.Sourced here) := ihs.widen sibling_places_subset
    have hchild : (child.body symbol).Stays here (Grammar.Sourced here) := ihc.widen child_places_subset
    have hnothing (finding : Finding) :=
      Reading.Stays.after_report (.pure (Grammar.sourced_epsilon (.inr hcell))) finding hcell
    cases operator with
    | table =>
      have hbody : (if child.isEmpty then do
            Reading.report .emptyTable (some cell.pos)
            return .epsilon (.ofPos (some cell.pos))
          else child.body symbol : Reading Grammar).Stays here (Grammar.Sourced here) := by
        split
        · exact hnothing _
        · exact hchild
      unfold body
      dsimp only
      split
      · exact hbody
      · next hempty =>
        have hsome : sibling ≠ .empty := fun he => hempty (he ▸ rfl)
        exact hbody.after_report _ ((at_pos? hsome).mono sibling_places_subset)
    | test =>
      unfold body
      dsimp only
      split
      · exact stays_tested (hnothing _) hcell child_places_subset
      · exact stays_tested hsibling hcell child_places_subset
    | testNot =>
      unfold body
      dsimp only
      split
      · exact stays_tested (hnothing _) hcell child_places_subset
      · exact stays_tested hsibling hcell child_places_subset
    | or =>
      unfold body
      refine hsibling.bind fun left hleft => hchild.bind fun right hright => .pure ?_
      intro n hn
      rcases Grammar.mem_nodes_combine.mp hn with rfl | ⟨part, hpart, hmem⟩
      · exact .inr hcell
      · rcases List.mem_pair.mp hpart with rfl | rfl
        · exact hleft n hmem
        · exact hright n hmem
    | assign name =>
      unfold body
      exact hchild.after_report _ hcell

end Tree

/-! ## Statements -/

namespace Statement

variable {places : List Position} {table : SymbolTable Grammar} {statement : Statement} {statements : List Statement}

def Stands (places : List Position) : Statement → Prop
  | definition _ pos body => pos ∈ places ∧ body.Stays places (Grammar.Sourced places)
  | stray pos => At places pos

theorem Stands.mono {others : List Position} (h : statement.Stands places) (hsub : places ⊆ others) :
    statement.Stands others := by
  cases statement with
  | definition name pos body => exact ⟨hsub h.1, h.2.widen hsub⟩
  | stray pos => exact At.mono h hsub

theorem stays_addTo (ht : ∀ entry ∈ table, entry.2.Sourced places) (hs : statement.Stands places) :
    (addTo table statement).Stays places fun table => ∀ entry ∈ table, entry.2.Sourced places := by
  cases statement with
  | definition name pos body =>
    refine hs.2.bind fun g hg => ?_
    split
    · exact Reading.Stays.after_report (.pure ht) _ (at_some hs.1)
    · refine .pure ?_
      intro entry he
      rcases SymbolTable.mem_of_mem_insert he with rfl | he
      · exact hg
      · exact ht entry he
  | stray pos => exact Reading.Stays.after_report (.pure ht) _ hs

theorem stays_foldlM_addTo (ht : ∀ entry ∈ table, entry.2.Sourced places)
    (hs : ∀ statement ∈ statements, statement.Stands places) :
    (statements.foldlM addTo table).Stays places fun table => ∀ entry ∈ table, entry.2.Sourced places := by
  induction statements generalizing table with
  | nil => exact .pure ht
  | cons statement rest ih =>
    obtain ⟨hfirst, hrest⟩ := List.forall_mem_cons.mp hs
    rw [List.foldlM_cons]
    exact (stays_addTo ht hfirst).bind fun table' ht' => ih ht' hrest

/-- Statements at some places make up a collection there. -/
theorem stays_grammarOf {pos : Option Position} (hpos : At places pos)
    (hs : ∀ statement ∈ statements, statement.Stands places) :
    (grammarOf pos statements).Stays places (Grammar.Sourced places) := by
  have hnone : ∀ entry ∈ ([] : SymbolTable Grammar), entry.2.Sourced places := by
    intro entry he
    cases he
  refine (stays_foldlM_addTo hnone hs).bind fun table ht => .pure ?_
  intro n hn
  rcases Grammar.mem_nodes_table.mp hn with rfl | ⟨entry, he, hn⟩
  · exact .inr hpos
  · exact ht entry he n hn

end Statement

namespace Tree

theorem stands_allStatements {cell : Cell} {name : String} {children : List Tree} {scope : List String}
    (h : ∀ tree ∈ children, ∀ statement ∈ tree.statements scope, statement.Stands tree.places) :
    ∀ statement ∈ allStatements scope children, statement.Stands (collection cell name children).places := by
  intro statement hs
  rw [allStatements_eq] at hs
  obtain ⟨tree, ht, hs⟩ := List.mem_flatMap.mp hs
  exact (h tree ht statement hs).mono (member_places_subset ht)

/-- All that a tree states, and what it is as the definition of a symbol, stays at its places. The two go together,
since either may hold the other. -/
theorem stands_statements (tree : Tree) (scope : List String) :
    (∀ statement ∈ tree.statements scope, statement.Stands tree.places) ∧
      (tree.definiens scope).Stays tree.places (Grammar.Sourced tree.places) := by
  induction tree generalizing scope with
  | empty =>
    constructor
    · intro statement h
      cases h
    · exact stays_body (String.intercalate "." scope) .empty
  | grid content =>
    constructor
    · intro statement h
      rw [List.mem_singleton.mp h]
      exact at_some content.cell_mem_places
    · exact stays_body (String.intercalate "." scope) (.grid content)
  | collection cell name children ih =>
    have hall (path : List String) : (Statement.grammarOf (some cell.pos) (allStatements path children)).Stays
        (collection cell name children).places (Grammar.Sourced (collection cell name children).places) :=
      Statement.stays_grammarOf (at_some cell_mem_places_collection)
        (stands_allStatements fun tree ht => (ih tree ht path).1)
    constructor
    · intro statement h
      rw [statements] at h
      rw [List.mem_singleton.mp h]
      exact ⟨cell_mem_places_collection, hall _⟩
    · exact hall scope
  | op cell operator sibling child ihs ihc =>
    constructor
    · intro statement h
      cases operator with
      | assign name =>
        rw [statements] at h
        rcases List.mem_append.mp h with h | h
        · exact ((ihs scope).1 statement h).mono sibling_places_subset
        · rw [List.mem_singleton.mp h]
          exact ⟨cell_mem_places_op, (ihc (scope ++ [name])).2.widen child_places_subset⟩
      | _ =>
        rw [List.mem_singleton.mp h]
        exact at_some cell_mem_places_op
    · exact stays_body (String.intercalate "." scope) (.op cell operator sibling child)

/-- A workbook stays at its places. An empty one has none, and its grammar no position. -/
theorem stays_grammar {tree : Tree} (h : tree ≠ .empty) :
    tree.grammar.Stays tree.places (Grammar.Sourced tree.places) := by
  cases tree with
  | collection cell name children =>
    refine Statement.stays_grammarOf (at_pos? h) ?_
    exact stands_allStatements fun tree _ => (stands_statements tree []).1
  | _ => exact Statement.stays_grammarOf (at_pos? h) (stands_statements _ []).1

/-! ## Tables and tests -/

/-- What is noted on an operator with its child is noted in the child. -/
theorem Surveys.at_places {survey : Tree → List Message} {note : Operator → Tree → List Message}
    (h : Surveys survey note) (hnote : ∀ operator child, ∀ message ∈ note operator child, At child.places message.pos)
    (tree : Tree) :
    ∀ message ∈ survey tree, At tree.places message.pos := by
  induction tree with
  | op cell operator sibling child ihs ihc =>
    rw [h.op]
    intro message hmem
    rcases List.mem_append.mp hmem with hmem | hmem
    · rcases List.mem_append.mp hmem with hmem | hmem
      · exact (ihs message hmem).mono sibling_places_subset
      · exact (ihc message hmem).mono child_places_subset
    · exact (hnote operator child message hmem).mono child_places_subset
  | grid content => simp [h.grid]
  | collection cell name children ih =>
    rw [h.collection]
    intro message hmem
    obtain ⟨tree, ht, hmem⟩ := List.mem_flatMap.mp hmem
    exact (ih tree ht message hmem).mono (member_places_subset ht)
  | empty => simp [h.empty]

theorem at_of_mem_implicitTables {tree : Tree} {message : Message} (h : message ∈ tree.implicitTables) :
    At tree.places message.pos := by
  refine surveys_implicitTables.at_places ?_ tree message h
  intro operator child message hmem
  unfold implicitTable at hmem
  split at hmem
  · next content =>
    split at hmem
    · cases hmem
    · rw [List.mem_singleton.mp hmem]
      exact at_some content.cell_mem_places
  · cases hmem

theorem at_of_mem_misfits {tree : Tree} {message : Message} (h : message ∈ tree.misfits) :
    At tree.places message.pos := by
  refine surveys_misfits.at_places ?_ tree message h
  intro operator child message hmem
  unfold misfitsUnder at hmem
  split at hmem
  · split at hmem
    · obtain ⟨⟨column, index⟩, hcolumn, rfl⟩ := List.mem_map.mp hmem
      exact at_some (Grid.column_mem_places (List.mem_of_getElem? (Grid.mem_misfits hcolumn).1))
    · cases hmem
  · cases hmem

theorem places_asTable_subset (tree : Tree) : tree.asTable.places ⊆ tree.places := by
  cases tree with
  | grid content =>
    intro pos hpos
    rcases List.mem_cons.mp hpos with rfl | hpos
    · exact content.cell_mem_places
    · exact hpos
  | _ => exact fun _ h => h

theorem places_underOperator_subset (operator : Operator) (tree : Tree) :
    (underOperator operator tree).places ⊆ tree.places := by
  unfold underOperator
  split
  · exact fun _ h => h
  · exact places_asTable_subset tree

/-- A table that is written out stands where its grid does. -/
theorem places_withTables_subset (tree : Tree) : tree.withTables.places ⊆ tree.places := by
  induction tree with
  | op cell operator sibling child ihs ihc =>
    intro pos hpos
    rw [withTables, places] at hpos
    rcases List.mem_cons.mp hpos with rfl | hpos
    · exact cell_mem_places_op
    · rcases List.mem_append.mp hpos with hpos | hpos
      · exact sibling_places_subset (ihs (places_asTable_subset _ hpos))
      · exact child_places_subset (ihc (places_underOperator_subset _ _ hpos))
  | grid content => exact fun _ h => h
  | collection cell name children ih =>
    intro pos hpos
    rw [withTables, places, allWithTables_eq, placesOfAll_eq] at hpos
    rcases List.mem_cons.mp hpos with rfl | hpos
    · exact cell_mem_places_collection
    · obtain ⟨changed, hmem, hpos⟩ := List.mem_flatMap.mp hpos
      obtain ⟨tree, ht, rfl⟩ := List.mem_map.mp hmem
      exact member_places_subset ht (ih tree ht (places_asTable_subset _ hpos))
  | empty => exact fun _ h => h

end Tree

end Sheet

end SheetGrammar
