import SheetGrammar.Proofs.DefaultMembers
import SheetGrammar.Proofs.NormalReading

/-!
Tests and the symbols that they are of. A test is recorded while its sheet is read, under the names of the collections
around it and of the symbol, with dots between them. The symbol itself gets its qualified name later: its collection is
given a default, taken apart, and annotated, and each of these may repair what it finds. The two names meet all the
same.

- `Tree.asks_body`: the tests in the content of a symbol are of that symbol.
- `Statement.kept_of_mem_tests`: if no name is defined twice in a collection, what is tested is among what is defined.
- `Tree.testsDefined_grammar`: so the tests of a tree name definitions that flattening finds in its grammar.
- `Grammar.contains_of_definition`: a definition that flattening finds has its symbol in the end, ambiguous or not,
  recursive or not.
- `Tree.definedCollections`: the names under which a workbook, which is none itself, defines collections.
- `compile_tests_named`: every test of a compiled workbook names a symbol of it.
-/

namespace SheetGrammar

open SheetGrammar.Symbol

namespace Sheet

/-! ## The symbol of a test -/

namespace Reading

variable {α β : Type} {r : Reading α} {f : α → Reading β} {symbol : String}

def Asks (r : Reading α) (symbol : String) : Prop := ∀ test ∈ r.tests, test.symbol = symbol

theorem Asks.bind (hr : r.Asks symbol) (hf : ∀ a, (f a).Asks symbol) : (r >>= f).Asks symbol := by
  intro test ht
  rw [bind_tests] at ht
  rcases List.mem_append.mp ht with ht | ht
  · exact hr test ht
  · exact hf r.value test ht

theorem asks_pure (a : α) : (pure a : Reading α).Asks symbol := by
  intro test ht
  cases ht

theorem asks_report (finding : Finding) (pos : Option Position) : (report finding pos).Asks symbol := by
  intro test ht
  cases ht

def Unrepeated (r : Reading α) : Prop := ∀ message ∈ r.messages, ∀ name, message.finding ≠ .duplicateSymbol name

theorem unrepeated_bind : (r >>= f).Unrepeated ↔ r.Unrepeated ∧ (f r.value).Unrepeated := by
  simp only [Unrepeated, bind_messages, List.mem_append, or_imp, forall_and]

end Reading

theorem Grid.asks_grammar (grid : Grid) (symbol : String) : grid.grammar.Asks symbol := by
  unfold grammar
  simp only []
  split
  · exact (Reading.asks_report _ _).bind fun _ => Reading.asks_pure _
  · intro test ht
    cases ht

namespace Tree

theorem asks_testsIn (symbol : String) (cell : Cell) (negated : Bool) (tree : Tree) :
    (body.testsIn symbol cell negated tree).Asks symbol := by
  unfold body.testsIn
  split
  · intro test ht
    obtain ⟨row, -, rfl⟩ := List.mem_map.mp ht
    rfl
  · exact Reading.asks_report _ _
  · exact Reading.asks_report _ _

/-- The tests in the content of a symbol are of that symbol. -/
theorem asks_body (symbol : String) (tree : Tree) : (tree.body symbol).Asks symbol := by
  have hepsilon (finding : Finding) (pos : Option Position) (g : Grammar) :
      (Reading.report finding pos >>= fun _ => (pure g : Reading Grammar)).Asks symbol :=
    (Reading.asks_report finding pos).bind fun _ => Reading.asks_pure g
  induction tree with
  | empty => exact Reading.asks_pure _
  | grid content => exact content.asks_grammar symbol
  | collection cell name children => exact hepsilon _ _ _
  | op cell operator sibling child ihs ihc =>
    have htested (tested : Reading Grammar) (h : tested.Asks symbol) (negated : Bool) :
        (tested >>= fun g => do
          body.testsIn symbol cell negated child
          return g).Asks symbol :=
      h.bind fun g => (asks_testsIn symbol cell negated child).bind fun _ => Reading.asks_pure g
    cases operator with
    | table =>
      have hchild : (if child.isEmpty then do
            Reading.report .emptyTable (some cell.pos)
            return .epsilon (.ofPos (some cell.pos))
          else child.body symbol : Reading Grammar).Asks symbol := by
        split
        · exact hepsilon _ _ _
        · exact ihc
      unfold body
      dsimp only
      split
      · exact hchild
      · exact (Reading.asks_report _ _).bind fun _ => hchild
    | test =>
      unfold body
      dsimp only
      split
      · exact htested _ (hepsilon _ _ _) false
      · exact htested _ ihs false
    | testNot =>
      unfold body
      dsimp only
      split
      · exact htested _ (hepsilon _ _ _) true
      · exact htested _ ihs true
    | or => exact ihs.bind fun left => ihc.bind fun right => Reading.asks_pure _
    | assign name => exact (Reading.asks_report _ _).bind fun _ => ihc

end Tree

/-! ## Tests and definitions -/

namespace Statement

variable {table : SymbolTable Grammar} {statement : Statement} {statements : List Statement}

/-- A statement that defines no symbol a second time puts its definition into the table, and its tests are those of its
body. -/
theorem addTo_unrepeated (h : (addTo table statement).Unrepeated) :
    (∀ entry ∈ table, entry ∈ (addTo table statement).value) ∧
      ∀ test ∈ (addTo table statement).tests, ∃ name pos body, statement = .definition name pos body ∧ body.Unrepeated ∧
        test ∈ body.tests ∧ (name, body.value) ∈ (addTo table statement).value := by
  cases statement with
  | stray pos => exact ⟨fun _ he => he, fun _ ht => nomatch ht⟩
  | definition name pos body =>
    obtain ⟨hbody, hrest⟩ := Reading.unrepeated_bind.mp h
    by_cases hc : table.contains name = true
    · rw [if_pos hc] at hrest
      exact absurd rfl (hrest ⟨.duplicateSymbol name, some pos⟩ (List.mem_singleton_self _) name)
    · have hvalue : (addTo table (.definition name pos body)).value = table ++ [(name, body.value)] := by
        rw [← SymbolTable.insert_of_not_contains (Bool.eq_false_iff.mpr hc)]
        simp only [addTo, Reading.bind_value, if_neg hc, Reading.pure_value]
      have htests : (addTo table (.definition name pos body)).tests = body.tests := by
        simp only [addTo, Reading.bind_tests, if_neg hc, Reading.pure_tests, List.append_nil]
      rw [hvalue, htests]
      exact ⟨fun entry he => List.mem_append_left _ he,
        fun test ht => ⟨name, pos, body, rfl, hbody, ht, List.mem_append_right _ (List.mem_singleton_self _)⟩⟩

/-- If no symbol is defined twice, every test is one of a definition that is in the table. -/
theorem kept_of_mem_tests (h : (statements.foldlM addTo table).Unrepeated) :
    (∀ entry ∈ table, entry ∈ (statements.foldlM addTo table).value) ∧
      ∀ test ∈ (statements.foldlM addTo table).tests, ∃ name pos body, .definition name pos body ∈ statements ∧
        body.Unrepeated ∧
        test ∈ body.tests ∧ (name, body.value) ∈ (statements.foldlM addTo table).value := by
  induction statements generalizing table with
  | nil => exact ⟨fun _ he => he, fun _ ht => nomatch ht⟩
  | cons statement rest ih =>
    rw [List.foldlM_cons] at h ⊢
    obtain ⟨hfirst, hrest⟩ := Reading.unrepeated_bind.mp h
    obtain ⟨hkept, htests⟩ := addTo_unrepeated hfirst
    obtain ⟨hkeptRest, htestsRest⟩ := ih hrest
    rw [Reading.bind_value, Reading.bind_tests]
    refine ⟨fun entry he => hkeptRest entry (hkept entry he), ?_⟩
    intro test ht
    rcases List.mem_append.mp ht with ht | ht
    · obtain ⟨name, pos, body, rfl, hbody, ht, hmem⟩ := htests test ht
      exact ⟨name, pos, body, List.mem_cons_self, hbody, ht, hkeptRest _ hmem⟩
    · obtain ⟨name, pos, body, hmem, hbody, ht, hdefined⟩ := htestsRest test ht
      exact ⟨name, pos, body, List.mem_cons_of_mem _ hmem, hbody, ht, hdefined⟩

end Statement

namespace Tree

mutual

/-- The names under which the statements of a tree define collections, those inside of collections included. -/
def collectionNames : Tree → List String
  | .collection _ name children => name :: allCollectionNames children
  | .op _ (.assign name) sibling child => sibling.collectionNames ++ child.assignedNames name
  | .op _ _ _ _ | .grid _ | .empty => []

/-- As `collectionNames`, for a tree that a name is assigned to. A collection there has that name and not its own. -/
def assignedNames (name : String) : Tree → List String
  | .collection _ _ children => name :: allCollectionNames children
  | .op _ _ _ _ | .grid _ | .empty => []

def allCollectionNames : List Tree → List String
  | [] => []
  | tree :: rest => tree.collectionNames ++ allCollectionNames rest

end

def definedCollections : Tree → List String
  | .collection _ _ children => allCollectionNames children
  | other => other.collectionNames

@[simp] theorem allCollectionNames_eq (trees : List Tree) :
    allCollectionNames trees = trees.flatMap collectionNames := by
  induction trees with
  | nil => rfl
  | cons tree rest ih => rw [allCollectionNames, ih, List.flatMap_cons]

end Tree

/-- The tests of what is read name definitions that flattening finds in it under `name`, inside `scope`. -/
def Reading.TestsDefined (r : Reading Grammar) (scope : List String) (name : String) : Prop :=
  r.Unrepeated → ∀ test ∈ r.tests, ∃ d ∈ Grammar.definitionsOf scope name r.value, d.name = test.symbol

namespace Tree

/-- The content of a symbol is one definition, which its tests are of. -/
theorem testsDefined_body {scope : List String} (hscope : scope ≠ [""]) (name : String) (tree : Tree) :
    (tree.body (dotted (scope ++ [name]))).TestsDefined scope name := by
  intro _ test ht
  have hflat := Grammar.isNestedTable_of_hasNested (tree.gives_body (dotted (scope ++ [name]))).1
  have hsymbol := tree.asks_body _ test ht
  rw [Grammar.definitionsOf_leaf hflat]
  refine ⟨_, List.mem_singleton_self _, ?_⟩
  rw [hsymbol]
  exact qualifyIn_of_ne hscope name

/-- Statements whose tests name their definitions make up a collection whose tests do. -/
theorem testsDefined_grammarOf {path : List String} {statements : List Statement}
    (h : ∀ symbol pos body, .definition symbol pos body ∈ statements → body.TestsDefined path symbol)
    (pos : Option Position) (hunrepeated : (Statement.grammarOf pos statements).Unrepeated) :
    ∀ test ∈ (Statement.grammarOf pos statements).tests,
      ∃ d ∈ Grammar.definitions path (Statement.grammarOf pos statements).value.inner, d.name = test.symbol := by
  intro test ht
  have htable := (Reading.unrepeated_bind.mp hunrepeated).1
  rw [Statement.grammarOf, Reading.bind_tests, Reading.pure_tests, List.append_nil] at ht
  obtain ⟨symbol, pos', body, hmem, hbody, ht, hkept⟩ := (Statement.kept_of_mem_tests htable).2 test ht
  obtain ⟨d, hd, hname⟩ := h symbol pos' body hmem hbody test ht
  refine ⟨d, ?_, hname⟩
  rw [Grammar.definitions_eq]
  exact List.mem_flatMap.mpr ⟨_, hkept, hd⟩

/-- The tests of a tree name definitions in its grammar: those of its statements, and those of what it is as a
definition. The two go together, since either may hold the other. -/
theorem testsDefined_statements (tree : Tree) {scope : List String} (hscope : scope ≠ [""]) :
    ("" ∉ tree.collectionNames → ∀ name pos body, .definition name pos body ∈ tree.statements scope →
      body.TestsDefined scope name) ∧
      ∀ name, "" ∉ tree.assignedNames name → (tree.definiens (scope ++ [name])).TestsDefined scope name := by
  induction tree generalizing scope with
  | empty =>
    refine ⟨?_, fun name _ => testsDefined_body hscope name .empty⟩
    intro _ name pos body hmem
    cases hmem
  | grid content =>
    refine ⟨?_, fun name _ => testsDefined_body hscope name (.grid content)⟩
    intro _ name pos body hmem
    cases List.mem_singleton.mp hmem
  | collection cell own children ih =>
    have hchildren (name : String) (hnames : "" ∉ name :: allCollectionNames children) :
        (Statement.grammarOf (some cell.pos) (allStatements (scope ++ [name]) children)).TestsDefined scope name := by
      rw [allCollectionNames_eq, List.mem_cons, not_or] at hnames
      refine testsDefined_grammarOf ?_ _
      intro symbol pos body hmem
      rw [allStatements_eq] at hmem
      obtain ⟨tree, ht, hmem⟩ := List.mem_flatMap.mp hmem
      have htree : "" ∉ tree.collectionNames := fun h => hnames.2 (List.mem_flatMap.mpr ⟨tree, ht, h⟩)
      exact (ih tree ht (concat_ne_unnamed (Ne.symm hnames.1))).1 htree symbol pos body hmem
    refine ⟨?_, hchildren⟩
    intro hnames name pos body hmem
    rw [statements, List.mem_singleton] at hmem
    cases hmem
    exact hchildren own hnames
  | op cell operator sibling child ihs ihc =>
    refine ⟨?_, fun name _ => testsDefined_body hscope name (.op cell operator sibling child)⟩
    intro hnames name pos body hmem
    cases operator with
    | assign symbol =>
      rw [collectionNames, List.mem_append, not_or] at hnames
      rw [statements, List.mem_append, List.mem_singleton] at hmem
      rcases hmem with hmem | hmem
      · exact (ihs hscope).1 hnames.1 name pos body hmem
      · cases hmem
        exact (ihc hscope).2 name hnames.2
    | _ => cases List.mem_singleton.mp hmem

/-- If no symbol is defined twice and no collection without a name, the tests of a workbook name definitions in its
grammar. -/
theorem testsDefined_grammar (workbook : Tree) (hnamed : "" ∉ workbook.definedCollections)
    (hunrepeated : workbook.grammar.Unrepeated) :
    ∀ test ∈ workbook.grammar.tests, ∃ d ∈ Grammar.definitions [] workbook.grammar.value.inner, d.name =
      test.symbol := by
  have hscope : ([] : List String) ≠ [""] := by decide
  cases workbook with
  | collection cell name children =>
    refine testsDefined_grammarOf ?_ _ hunrepeated
    intro symbol pos body hmem
    rw [allStatements_eq] at hmem
    obtain ⟨tree, ht, hmem⟩ := List.mem_flatMap.mp hmem
    rw [definedCollections, allCollectionNames_eq] at hnamed
    have htree : "" ∉ tree.collectionNames := fun h => hnamed (List.mem_flatMap.mpr ⟨tree, ht, h⟩)
    exact (testsDefined_statements tree hscope).1 htree symbol pos body hmem
  | _ => exact testsDefined_grammarOf ((testsDefined_statements _ hscope).1 hnamed) _ hunrepeated

end Tree

end Sheet

/-! ## From definitions to symbols -/

/-- Of definitions with one key one is kept. -/
theorem Definition.exists_kept {seen : List String} {ds : List Definition} {d : Definition} (hd : d ∈ ds)
    (hseen : d.key ∉ seen) : ∃ kept ∈ (partition seen ds).1, kept.key = d.key := by
  induction ds generalizing seen with
  | nil => cases hd
  | cons first rest ih =>
    unfold partition
    by_cases hfirst : first.key ∈ seen
    · rw [if_pos hfirst]
      rcases List.mem_cons.mp hd with rfl | hd
      · exact absurd hfirst hseen
      · exact ih hd hseen
    · rw [if_neg hfirst]
      by_cases hk : d.key = first.key
      · exact ⟨first, List.mem_cons_self, hk.symm⟩
      · rcases List.mem_cons.mp hd with rfl | hd
        · exact absurd rfl hk
        · have hnew : d.key ∉ first.key :: seen := by simp [hk, hseen]
          obtain ⟨kept, hkept, hkey⟩ := ih hd hnew
          exact ⟨kept, List.mem_cons_of_mem _ hkept, hkey⟩

namespace Grammar

variable {g : Grammar} {d : Definition}

/-- Defaults take no definition away. -/
theorem exists_definition_assignDefaults {scope : List String} {name : String} (hd : d ∈ definitionsOf scope name g) :
    ∃ d' ∈ definitionsOf scope name g.assignDefaults, d'.name = d.name := by
  induction g generalizing scope name with
  | table m scoping entries ih =>
    cases scoping with
    | flat =>
      rw [List.mem_singleton.mp hd]
      exact ⟨_, List.mem_singleton_self _, rfl⟩
    | nested =>
      rw [definitionsOf, definitions_eq] at hd
      obtain ⟨entry, he, hd⟩ := List.mem_flatMap.mp hd
      obtain ⟨d', hd', hname⟩ := ih entry he hd
      refine ⟨d', ?_, hname⟩
      rw [definitionsOf_of_nested (g := (table m .nested entries).assignDefaults) rfl, definitions_eq]
      exact List.mem_flatMap.mpr ⟨_, mem_inner_assignDefaults (g := .table m .nested entries) he, hd'⟩
  | _ =>
    rw [List.mem_singleton.mp hd]
    exact ⟨_, List.mem_singleton_self _, rfl⟩

/-- A definition of a collection has a symbol of its name when the collection is flattened, be it that of an earlier
definition. -/
theorem contains_of_definition (hg : g.isNestedTable = true) (hd : d ∈ definitions [] g.inner) :
    ∃ m symbols, g.assignDefaults.qualifyNames.1 = table m .flat symbols ∧
      SymbolTable.contains symbols d.name = true := by
  rw [definitions_eq] at hd
  obtain ⟨⟨name, h⟩, hmem, hd⟩ := List.mem_flatMap.mp hd
  obtain ⟨d', hd', hname⟩ := exists_definition_assignDefaults hd
  have hlisted : d' ∈ definitions [] g.assignDefaults.inner := by
    rw [definitions_eq]
    exact List.mem_flatMap.mpr ⟨_, mem_inner_assignDefaults hmem, hd'⟩
  obtain ⟨kept, hkept, hkey⟩ := Definition.exists_kept hlisted List.not_mem_nil
  obtain ⟨m, hassigned⟩ := exists_eq_of_nested ((isNestedTable_assignDefaults g).trans hg)
  rw [hassigned]
  refine ⟨_, _, rfl, SymbolTable.contains_iff.mpr ⟨_, List.mem_map_of_mem hkept, ?_⟩⟩
  rw [← hname]
  exact hkey

/-- Tape inference leaves the names of a table as they are. -/
theorem contains_inferTapes {m : Mark} {symbols : SymbolTable Grammar} {made : Grammar}
    (ok : (table m .flat symbols).inferTapes.1 = .ok made) :
    ∃ m' made', made = table m' .flat made' ∧ ∀ name, SymbolTable.contains made' name = symbols.contains name := by
  have ha := Inference.annotate_table ok
  refine ⟨_, _, Except.ok.inj (ok.symm.trans ha.result), ?_⟩
  intro name
  exact SymbolTable.contains_redefine _ _ _

end Grammar

/-! ## Whole runs -/

/-- What a workbook compiles to. -/
theorem exists_program (settings : Settings) (workbook : Sheet.Tree) :
    ∃ program, (compile settings workbook).result = .ok program ∧ program.tests = workbook.grammar.tests ∧
      workbook.grammar.value.assignDefaults.qualifyNames.1.inferTapes.1 = .ok program.grammar := by
  obtain ⟨m, symbols, -, htapes⟩ := exists_inferTapes workbook.normal
  obtain ⟨literals, hliterals⟩ := TestCase.exists_alphabet workbook.normal.gives_grammar.2
  have hresult := (stages_fst workbook { keepInfo := settings.reportInfo }).trans htapes
  have htests := stages_tests workbook { keepInfo := settings.reportInfo }
  rw [Sheet.Tree.grammar_normal] at htapes hliterals htests
  refine ⟨⟨.table m .flat symbols, workbook.grammar.tests, literals⟩, ?_, rfl, htapes⟩
  unfold compile
  simp only [hresult, htests, List.nil_append, hliterals]
  rfl

/-- What is reported when a workbook is read is reported when it is compiled, notes apart. -/
theorem mem_compile_messages {settings : Settings} {workbook : Sheet.Tree} {message : Message}
    (h : message ∈ workbook.grammar.messages) (hsevere : message.severity ≠ .info) :
    message ∈ (compile settings workbook).messages := by
  have hkeeps (log : Log) : log.keeps message = true := by simp [Log.keeps, hsevere]
  have hread (log : Log) : message ∈ (log.reportAll workbook.grammar.messages).messages := by
    rw [Log.messages_reportAll]
    exact List.mem_append_right _ (List.mem_filter.mpr ⟨h, hkeeps log⟩)
  have hlater {log : Log} (hmem : message ∈ log.messages) (messages : List Message) :
      message ∈ (log.reportAll messages).messages := by
    rw [Log.messages_reportAll]
    exact List.mem_append_left _ hmem
  -- the stages of resolution only add to what the sheet was found to be like
  show message ∈
    (Log.reportAll
    (Log.reportAll (Log.reportAll (Log.addTests (Log.reportAll _ workbook.normal.grammar.messages) _) _) _)
    _).messages
  rw [Sheet.Tree.grammar_normal]
  refine hlater (hlater (hlater ?_ _) _) _
  exact hread _

/-- The tests of a compiled workbook are those that were read, and each names a symbol of it, whatever else is wrong
with the workbook, if no symbol is defined twice in one collection and no collection without a name. -/
theorem compile_tests_named (settings : Settings) (workbook : Sheet.Tree) (hnamed : "" ∉ workbook.definedCollections)
    (hunrepeated : ∀ message ∈ (compile settings workbook).messages, ∀ name, message.finding ≠ .duplicateSymbol name) :
    ∃ program, (compile settings workbook).result = .ok program ∧ program.tests = workbook.grammar.tests ∧
      ∀ test ∈ program.tests, (program.symbol? test.symbol).isSome = true := by
  obtain ⟨program, hresult, htests, hgrammar⟩ := exists_program settings workbook
  refine ⟨program, hresult, htests, ?_⟩
  intro test ht
  have hread : workbook.grammar.Unrepeated := by
    intro message hmem name hfinding
    exact hunrepeated message (mem_compile_messages hmem (by simp [Message.severity, hfinding, Finding.severity])) name
      hfinding
  rw [htests] at ht
  obtain ⟨d, hd, hname⟩ := workbook.testsDefined_grammar hnamed hread test ht
  obtain ⟨m, symbols, hflat, hcontains⟩ := Grammar.contains_of_definition workbook.gives_grammar.1.1 hd
  rw [hflat] at hgrammar
  obtain ⟨m', made, hmade, hsame⟩ := Grammar.contains_inferTapes hgrammar
  have hsymbols : program.symbols = made := by rw [Program.symbols, hmade]
  rw [Program.symbol?, hsymbols, ← SymbolTable.contains_eq_isSome, hsame, ← hname]
  exact hcontains

/-- With a collection that a name is assigned to, a symbol whose qualified name is that of another, and one that embeds
itself. -/
theorem compile_tests_named_ambiguous :
    let cell (text : String) : Cell := ⟨text, ⟨"Sheet", 0, 0⟩⟩
    let column (header : Sheet.Header) : Sheet.Column := ⟨header, ⟨"Sheet", 0, 0⟩⟩
    let grid (text : String) : Sheet.Tree :=
      .grid ⟨cell "", [column (.tape "text"), column .embed], [⟨⟨"Sheet", 0, 0⟩, [cell text, cell "loop"]⟩]⟩
    let define (name : String) (body : Sheet.Tree) : Sheet.Tree := .op (cell name) (.assign name) .empty body
    let tested (text : String) : Sheet.Tree := .op (cell "test") .test (grid text) (grid text)
    let workbook : Sheet.Tree := .collection (cell "") ""
      [define "Verbs" (.collection (cell "") "" [define "root" (tested "run")]), define "verbs.ROOT" (tested "go"),
        define "loop" (tested "on")]
    "" ∉ workbook.definedCollections ∧
      (∀ message ∈ (compile {} workbook).messages, ∀ name, message.finding ≠ .duplicateSymbol name) ∧
      (compile {} workbook).errors.map (·.finding.code) =
        ["gramble::non_literal_test_header", "gramble::non_literal_test_header", "gramble::non_literal_test_header",
          "gramble::ambiguous_symbol", "gramble::recursive_embed"] ∧
      ∃ program, (compile {} workbook).result = .ok program ∧
        program.tests.map (·.symbol) = ["Verbs.root", "verbs.ROOT", "loop"] ∧
        ∀ test ∈ program.tests, (program.symbol? test.symbol).isSome = true := by
  intro cell column grid define tested workbook
  have hnamed : "" ∉ workbook.definedCollections := by decide +kernel
  have hcodes : ∀ message ∈ (compile {} workbook).messages, message.finding.code ≠ "gramble::duplicate_symbol" := by
    decide +kernel
  have hunrepeated : ∀ message ∈ (compile {} workbook).messages, ∀ name, message.finding ≠ .duplicateSymbol name := by
    intro message hmem name hfinding
    exact hcodes message hmem (by rw [hfinding]; rfl)
  have hsymbols : workbook.grammar.tests.map (·.symbol) = ["Verbs.root", "verbs.ROOT", "loop"] := by decide +kernel
  obtain ⟨program, hresult, htests, hsymbol⟩ := compile_tests_named {} workbook hnamed hunrepeated
  rw [← htests] at hsymbols
  exact ⟨hnamed, hunrepeated, by decide +kernel, program, hresult, hsymbols, hsymbol⟩

end SheetGrammar
