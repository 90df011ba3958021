import SheetGrammar.Canonical.Printer
import SheetGrammar.Proofs.RowAccounts

/-!
Of two definitions of one name in a collection the first holds. The definitions of a collection stand in its members:
one after the other in a chain of assignments, each above the next, and whole collections among them. They are gathered
into a table that is asked for each name, whatever its spelling; a name that is there already is reported at the cell
where it is defined again.

- `Tree.written`: the definitions that a member makes, in the order of the sheet, each with the cell that defines it.
- `Read.firsts`, `Read.reports`: the first definition of each name, and a report for every other.
- `Statement.addTo_written`, `Statement.foldlM_addTo_written`: one more definition, and all of them.
- `Tabulates`: what the members of a collection define, and what is reported of that, at every depth. `ReadAs` is the
  same of what one symbol is defined as.
- `Tree.grammarStage_tabulates`: a whole sheet.
-/

namespace SheetGrammar

def Finding.isDuplicateSymbol : Finding → Bool
  | duplicateSymbol _ => true
  | _ => false

theorem Message.isSevere_of_isDuplicateSymbol {message : Message} (h : message.finding.isDuplicateSymbol = true) :
    message.isSevere = true := by
  obtain ⟨finding, pos⟩ := message
  cases finding with
  | duplicateSymbol name => rfl
  | _ => cases h

theorem SymbolTable.contains_concat {α : Type} {table : SymbolTable α} {name other : String} {a : α} :
    SymbolTable.contains (table ++ [(name, a)]) other = true ↔
      table.contains other = true ∨ Symbol.key other = Symbol.key name := by
  simp only [contains_iff, List.mem_append, List.mem_singleton, or_and_right, exists_or, exists_eq_left]
  exact or_congr_right eq_comm

namespace Sheet

/-! ## Reports of second definitions -/

namespace Reading

variable {α β : Type}

def repeats (r : Reading α) : List Message := r.messages.filter (·.finding.isDuplicateSymbol)

@[simp] theorem repeats_pure (a : α) : (pure a : Reading α).repeats = [] := rfl

@[simp] theorem repeats_bind (r : Reading α) (f : α → Reading β) :
    (r >>= f).repeats = r.repeats ++ (f r.value).repeats :=
  List.filter_append _ _

@[simp] theorem repeats_report (finding : Finding) (pos : Option Position) :
    (report finding pos).repeats = if finding.isDuplicateSymbol then [⟨finding, pos⟩] else [] := by
  rw [repeats, report, List.filter_cons, List.filter_nil]

end Reading

theorem Grid.repeats_grammar (grid : Grid) : grid.grammar.repeats = [] := by
  unfold grammar
  dsimp only
  split
  · simp [Finding.isDuplicateSymbol]
  · have hduplicates : (Reading.reportAll grid.duplicates).repeats = [] := by
      refine List.filter_eq_nil_iff.mpr fun message hmem => ?_
      obtain ⟨⟨column, index⟩, -, hmem⟩ := List.mem_flatMap.mp hmem
      dsimp only at hmem
      split at hmem
      · obtain ⟨cell, -, rfl⟩ := List.mem_map.mp hmem
        exact Bool.false_ne_true
      · cases hmem
    simp [hduplicates]

namespace Tree

theorem repeats_testsIn (symbol : String) (cell : Cell) (negated : Bool) (tree : Tree) :
    (body.testsIn symbol cell negated tree).repeats = [] := by
  cases tree <;> rfl

/-- No symbol is defined in the content of another. -/
theorem repeats_body (symbol : String) (tree : Tree) : (tree.body symbol).repeats = [] := by
  induction tree with
  | empty => rfl
  | grid content => exact content.repeats_grammar
  | collection cell name children => rfl
  | op cell operator sibling child ihs ihc =>
    cases operator with
    | table =>
      unfold body
      dsimp only
      split <;> split <;> simp [Finding.isDuplicateSymbol, ihc]
    | test =>
      unfold body
      dsimp only
      split <;> simp [body.untested, Finding.isDuplicateSymbol, repeats_testsIn, ihs]
    | testNot =>
      unfold body
      dsimp only
      split <;> simp [body.untested, Finding.isDuplicateSymbol, repeats_testsIn, ihs]
    | or => simp [body, ihs, ihc]
    | assign name => simp [body, Finding.isDuplicateSymbol, ihc]

end Tree

/-! ## Definitions as they are written -/

structure Written where
  name : String
  pos : Position
  content : Tree

namespace Written

def key (w : Written) : String := Symbol.key w.name

def statement (path : List String) (w : Written) : Statement :=
  .definition w.name w.pos (w.content.definiens (path ++ [w.name]))

end Written

/-- The definitions that a member of a collection makes, in the order of the sheet. What is above an assignment comes
before it, and a collection is one definition, under its own name or the one that it is assigned to. -/
def Tree.written : Tree → List Written
  | .collection cell name members => [⟨name, cell.pos, .collection cell name members⟩]
  | .op cell (.assign name) sibling child => sibling.written ++ [⟨name, cell.pos, child⟩]
  | .op _ _ _ _ | .grid _ | .empty => []

def Statement.isDefinition : Statement → Bool
  | definition _ _ _ => true
  | stray _ => false

namespace Tree

/-- The statements of a tree that define something are its definitions. -/
theorem filter_statements (path : List String) (tree : Tree) :
    (tree.statements path).filter Statement.isDefinition = tree.written.map (Written.statement path) := by
  induction tree with
  | op cell operator sibling child ihs ihc =>
    cases operator with
    | assign name =>
      rw [statements, written, List.filter_append, ihs, List.map_append]
      rfl
    | _ => rfl
  | collection cell name children ih =>
    rw [statements, written, List.map_singleton, Written.statement, definiens]
    rfl
  | _ => rfl

theorem filter_allStatements (path : List String) (trees : List Tree) :
    (allStatements path trees).filter Statement.isDefinition =
      (trees.flatMap written).map (Written.statement path) := by
  rw [allStatements_eq, List.filter_flatMap, List.map_flatMap]
  exact List.flatMap_congr fun tree _ => filter_statements path tree

end Tree

/-! ## First definitions -/

structure Read where
  written : Written
  grammar : Grammar
  report : List Message

namespace Read

def isRepeated (ds : List Read) (place : Read × Nat) : Bool :=
  decide (place.1.written.key ∈ (ds.take place.2).map (·.written.key))

/-- What is reported of a definition: what there is inside of it and then, if the name is taken, the definition
itself. -/
def reportOf (ds : List Read) (place : Read × Nat) : List Message :=
  place.1.report ++
    if isRepeated ds place then [⟨.duplicateSymbol place.1.written.name, some place.1.written.pos⟩] else []

def firsts (ds : List Read) : SymbolTable Grammar :=
  (ds.zipIdx.filter fun place => !isRepeated ds place).map fun place => (place.1.written.name, place.1.grammar)

def reports (ds : List Read) : List Message := ds.zipIdx.flatMap (reportOf ds)

def ofWritten (path : List String) (w : Written) : Read :=
  ⟨w, (w.content.definiens (path ++ [w.name])).value, (w.content.definiens (path ++ [w.name])).repeats⟩

end Read

namespace Statement

variable {table : SymbolTable Grammar}

/-- What is no definition makes no difference. -/
theorem foldlM_addTo_filter (statements : List Statement) (table : SymbolTable Grammar) :
    (statements.foldlM addTo table).value = ((statements.filter isDefinition).foldlM addTo table).value ∧
      (statements.foldlM addTo table).repeats = ((statements.filter isDefinition).foldlM addTo table).repeats := by
  induction statements generalizing table with
  | nil => exact ⟨rfl, rfl⟩
  | cons statement rest ih =>
    cases statement with
    | definition name pos body =>
      obtain ⟨hvalue, hrepeats⟩ := ih (addTo table (.definition name pos body)).value
      rw [List.filter_cons_of_pos rfl, List.foldlM_cons, List.foldlM_cons, Reading.repeats_bind, Reading.repeats_bind,
        hrepeats]
      exact ⟨hvalue, rfl⟩
    | stray pos =>
      rw [List.filter_cons_of_neg Bool.false_ne_true, List.foldlM_cons, Reading.repeats_bind]
      exact ih table

/-- One more definition: it is added at the end, or reported if its name is taken. -/
theorem addTo_written (path : List String) (w : Written) (table : SymbolTable Grammar) :
    let d := Read.ofWritten path w
    (addTo table (w.statement path)).value = (if table.contains w.name then table else table ++ [(w.name, d.grammar)]) ∧
      (addTo table (w.statement path)).repeats =
        d.report ++ if table.contains w.name then [⟨.duplicateSymbol w.name, some w.pos⟩] else [] := by
  intro d
  cases hc : table.contains w.name with
  | true => simp [addTo, Written.statement, hc, d, Read.ofWritten, Finding.isDuplicateSymbol]
  | false => simp [addTo, Written.statement, hc, d, Read.ofWritten, SymbolTable.insert_of_not_contains hc]

/-- The names in the table after one more definition. -/
theorem contains_addTo_written (path : List String) (w : Written) (table : SymbolTable Grammar) (name : String) :
    (addTo table (w.statement path)).value.contains name = true ↔
      table.contains name = true ∨ Symbol.key name = w.key := by
  rw [(addTo_written path w table).1]
  cases hc : table.contains w.name with
  | true =>
    refine ⟨.inl, fun h => h.elim id fun hkey => ?_⟩
    rw [if_pos rfl, ← table.contains_key, hkey, Written.key, table.contains_key, hc]
  | false => exact SymbolTable.contains_concat

/-- Definitions after some others, which the table holds the names of. -/
theorem foldlM_addTo_written (path : List String) (before ws : List Written)
    (htable : ∀ name, table.contains name = true ↔ Symbol.key name ∈ before.map Written.key) :
    let ds := (before ++ ws).map (Read.ofWritten path)
    let places := (ws.map (Read.ofWritten path)).zipIdx before.length
    ((ws.map (Written.statement path)).foldlM addTo table).value =
        table ++ (places.filter fun place => !Read.isRepeated ds place).map
          (fun place => (place.1.written.name, place.1.grammar)) ∧
      ((ws.map (Written.statement path)).foldlM addTo table).repeats = places.flatMap (Read.reportOf ds) := by
  induction ws generalizing before table with
  | nil => simp
  | cons w rest ih =>
    intro ds places
    obtain ⟨hvalue, hrepeats⟩ := addTo_written path w table
    have hrepeated : Read.isRepeated ds (Read.ofWritten path w, before.length) = table.contains w.name := by
      rw [Bool.eq_iff_iff, htable, Read.isRepeated, decide_eq_true_eq]
      simp [ds, Read.ofWritten, Written.key]
    have hnext : ∀ name, (addTo table (w.statement path)).value.contains name = true ↔
        Symbol.key name ∈ (before ++ [w]).map Written.key := by
      intro name
      rw [contains_addTo_written, htable, List.map_append, List.mem_append, List.map_singleton, List.mem_singleton]
    have hlist : (before ++ [w]) ++ rest = before ++ w :: rest := by simp
    have hplaces : places = (Read.ofWritten path w, before.length) ::
        (rest.map (Read.ofWritten path)).zipIdx (before ++ [w]).length := by
      simp [places]
    obtain ⟨htail, hreports⟩ := ih (before ++ [w]) hnext
    rw [hlist] at htail hreports
    rw [List.map_cons, List.foldlM_cons, Reading.bind_value, Reading.repeats_bind, htail, hreports, hvalue, hrepeats,
      hplaces]
    constructor
    · rw [List.filter_cons, hrepeated]
      cases table.contains w.name with
      | true => rfl
      | false => simp [Read.ofWritten, ds]
    · rw [List.flatMap_cons, Read.reportOf, hrepeated]
      rfl

/-- All definitions of a collection. -/
theorem tableOf_written (path : List String) (ws : List Written) :
    (tableOf (ws.map (Written.statement path))).value = Read.firsts (ws.map (Read.ofWritten path)) ∧
      (tableOf (ws.map (Written.statement path))).repeats = Read.reports (ws.map (Read.ofWritten path)) := by
  have hnone : ∀ name, SymbolTable.contains ([] : SymbolTable Grammar) name = true ↔
      Symbol.key name ∈ ([] : List Written).map Written.key := by
    simp [SymbolTable.contains_iff]
  exact foldlM_addTo_written path [] ws hnone

end Statement

/-! ## Collections at every depth -/

def Tree.isCollection : Tree → Bool
  | .collection _ _ _ => true
  | _ => false

mutual

inductive Tabulates : List String → List Tree → SymbolTable Grammar → List Message → Prop
  | intro {path : List String} {members : List Tree} {ds : List Read} :
      ds.map Read.written = members.flatMap Tree.written →
      (∀ d ∈ ds, ReadAs (path ++ [d.written.name]) d.written.content d.grammar d.report) →
      Tabulates path members (Read.firsts ds) (Read.reports ds)

inductive ReadAs : List String → Tree → Grammar → List Message → Prop
  | collection {path : List String} (cell : Cell) (name : String) {members : List Tree} {table : SymbolTable Grammar}
      {report : List Message} : Tabulates path members table report →
      ReadAs path (.collection cell name members) (.table (.ofPos (some cell.pos)) .nested table) report
  | content {path : List String} {tree : Tree} : tree.isCollection = false →
      ReadAs path tree (tree.body (String.intercalate "." path)).value []

end

namespace Tree

/-- The members of a workbook. A tree that is no collection is the only member of one without a name. -/
def members : Tree → List Tree
  | .collection _ _ children => children
  | other => [other]

/-- If all definitions of some trees are read so, they make up a table. -/
theorem tabulates_of_readAs {path : List String} {trees : List Tree}
    (h : ∀ w ∈ trees.flatMap written, ReadAs (path ++ [w.name]) w.content (Read.ofWritten path w).grammar
      (Read.ofWritten path w).report) :
    Tabulates path trees (Statement.tableOf (allStatements path trees)).value
      (Statement.tableOf (allStatements path trees)).repeats := by
  obtain ⟨hvalue, hrepeats⟩ := Statement.foldlM_addTo_filter (allStatements path trees) []
  obtain ⟨hfirsts, hreports⟩ := Statement.tableOf_written path (trees.flatMap written)
  rw [Statement.tableOf] at hfirsts hreports
  rw [filter_allStatements] at hvalue hrepeats
  rw [Statement.tableOf, hvalue, hrepeats, hfirsts, hreports]
  refine .intro ?_ ?_
  · rw [List.map_map]
    exact List.map_id _
  · intro d hd
    obtain ⟨w, hw, rfl⟩ := List.mem_map.mp hd
    exact h w hw

/-- What a tree is as the definition of a symbol, and all that it defines itself. The two go together, since either may
hold the other. -/
theorem readAs_definiens (tree : Tree) :
    (∀ path, ReadAs path tree (tree.definiens path).value (tree.definiens path).repeats) ∧
      ∀ w ∈ tree.written, ∀ path, ReadAs path w.content (w.content.definiens path).value
        (w.content.definiens path).repeats := by
  have hcontent (tree : Tree) (htree : tree.isCollection = false) (path : List String) :
      ReadAs path tree (tree.definiens path).value (tree.definiens path).repeats := by
    have hbody : tree.definiens path = tree.body (String.intercalate "." path) := by
      cases tree with
      | collection cell name children => cases htree
      | _ => rw [definiens]
    rw [hbody, repeats_body]
    exact .content htree
  induction tree with
  | op cell operator sibling child ihs ihc =>
    refine ⟨hcontent _ rfl, ?_⟩
    cases operator with
    | assign name =>
      intro w hw
      rw [written] at hw
      rcases List.mem_append.mp hw with hw | hw
      · exact ihs.2 w hw
      · rw [List.mem_singleton.mp hw]
        exact ihc.1
    | _ =>
      intro w hw
      cases hw
  | grid content =>
    refine ⟨hcontent _ rfl, ?_⟩
    intro w hw
    cases hw
  | collection cell name children ih =>
    have hself (path : List String) : ReadAs path (.collection cell name children)
        ((Tree.collection cell name children).definiens path).value
          ((Tree.collection cell name children).definiens path).repeats := by
      rw [definiens, Statement.grammarOf, Reading.repeats_bind, Reading.repeats_pure, List.append_nil]
      refine .collection cell name (tabulates_of_readAs fun w hw => ?_)
      obtain ⟨tree, htree, hw⟩ := List.mem_flatMap.mp hw
      exact (ih tree htree).2 w hw _
    refine ⟨hself, fun w hw => ?_⟩
    rw [List.mem_singleton.mp hw]
    exact hself
  | empty =>
    refine ⟨hcontent _ rfl, ?_⟩
    intro w hw
    cases hw

theorem grammar_eq (tree : Tree) : tree.grammar = Statement.grammarOf tree.pos? (allStatements [] tree.members) := by
  cases tree with
  | collection cell name children => rfl
  | _ => simp [grammar, members]

/-- In every collection of a sheet, at any depth, the table holds the first definition of each name, as it is spelled
there, and every other definition is reported once, in order and at its own cell. -/
theorem grammarStage_tabulates (tree : Tree) (log : Log) :
    ∃ table report, (tree.grammarStage log).1 = .ok (.table (.ofPos tree.pos?) .nested table) ∧
      (tree.grammarStage log).2.messages.filter (·.finding.isDuplicateSymbol) =
        log.messages.filter (·.finding.isDuplicateSymbol) ++ report ∧
      Tabulates [] tree.members table report := by
  have hkept : ∀ message ∈ tree.grammar.messages,
      (message.finding.isDuplicateSymbol && log.keeps message) = message.finding.isDuplicateSymbol := by
    intro message _
    cases hfinding : message.finding.isDuplicateSymbol with
    | false => rfl
    | true => exact log.keeps_of_isSevere (Message.isSevere_of_isDuplicateSymbol hfinding)
  have hreport : tree.grammar.repeats = (Statement.tableOf (allStatements [] tree.members)).repeats := by
    rw [grammar_eq, Statement.grammarOf, Reading.repeats_bind, Reading.repeats_pure, List.append_nil]
  refine ⟨_, _, ?_, ?_, tabulates_of_readAs fun w hw => ?_⟩
  · rw [grammarStage, grammar_eq]
    rfl
  · rw [← hreport, grammarStage, Log.messages_addTests, Log.messages_reportAll, List.filter_append, List.filter_filter,
      List.filter_congr hkept]
    rfl
  · obtain ⟨member, -, hw⟩ := List.mem_flatMap.mp hw
    exact member.readAs_definiens.2 w hw _

/-- A chain of assignments below a collection. The collection that is assigned to the name of the first one is left
out, and what is defined twice in it is reported all the same. -/
example :
    let cell (row : UInt64) : Cell := ⟨"", ⟨"Sheet", row, 0⟩⟩
    let assign (row : UInt64) (name : String) (sibling child : Tree) : Tree :=
      .op (cell row) (.assign name) sibling child
    let first : Tree := .collection (cell 0) "Verbs" [assign 2 "RUN" (assign 1 "run" .empty .empty) .empty]
    let second : Tree := .collection (cell 3) "Nouns" [assign 4 "cat" .empty .empty, assign 5 "Cat" .empty .empty]
    let workbook : Tree :=
      .collection (cell 0) "" [assign 8 "NOUN" (assign 7 "verbs" (assign 6 "noun" first .empty) second) .empty]
    workbook.grammar.value.render = "(coll (Verbs (coll (run ε))) (noun ε))" ∧
      (workbook.grammarStage {}).2.messages =
        [⟨.duplicateSymbol "RUN", some ⟨"Sheet", 2, 0⟩⟩, ⟨.duplicateSymbol "Cat", some ⟨"Sheet", 5, 0⟩⟩,
          ⟨.duplicateSymbol "verbs", some ⟨"Sheet", 7, 0⟩⟩, ⟨.duplicateSymbol "NOUN", some ⟨"Sheet", 8, 0⟩⟩] := by
  decide +kernel

end Tree

end Sheet

end SheetGrammar
