import SheetGrammar.Compilation
import SheetGrammar.Proofs.NameRewriting
import SheetGrammar.Proofs.RecursionReports
import SheetGrammar.Proofs.Translation

/-!
No workbook ends a run. A fault is a grammar at a stage that is not for it, and there are two: a collection at tape
inference, and a test that is not spelled out at the literals. Neither can come of a sheet, whatever stands in it.

- `WellNested.assignDefaults`: defaults keep collections where they are allowed to be.
- `WellNested.hasNested_definition`: so the definitions that flattening finds have none in them.
- `IsRow.exists_literals`: the literals of a row can always be read off.
- `compile_total`: every workbook compiles to a flat table, under any settings.
-/

namespace SheetGrammar

/-- What is kept was there. -/
theorem Definition.mem_of_mem_partition {seen : List String} {ds : List Definition} {d : Definition}
    (h : d ∈ (partition seen ds).1) : d ∈ ds := by
  induction ds generalizing seen with
  | nil => cases h
  | cons first rest ih =>
    unfold partition at h
    split at h
    · exact List.mem_cons_of_mem _ (ih h)
    · rcases List.mem_cons.mp h with rfl | h
      · exact List.mem_cons_self ..
      · exact List.mem_cons_of_mem _ (ih h)

/-- Of definitions with one key the first is kept. -/
theorem Definition.nodup_partition (seen : List String) (ds : List Definition) :
    ((partition seen ds).1.map key).Nodup ∧ ∀ d ∈ (partition seen ds).1, d.key ∉ seen := by
  induction ds generalizing seen with
  | nil => exact ⟨List.nodup_nil, by simp [partition]⟩
  | cons first rest ih =>
    unfold partition
    split
    · exact ih seen
    · next hnew =>
      obtain ⟨hnodup, hfresh⟩ := ih (first.key :: seen)
      refine ⟨?_, ?_⟩
      · refine List.nodup_cons.mpr ⟨?_, hnodup⟩
        intro hmem
        obtain ⟨d, hd, hk⟩ := List.mem_map.mp hmem
        exact hfresh d hd (by simp [hk])
      · intro d hd
        rcases List.mem_cons.mp hd with rfl | hd
        · exact hnew
        · exact fun hmem => hfresh d hd (List.mem_cons_of_mem _ hmem)

namespace Grammar

variable {g : Grammar}

/-! ## Defaults -/

theorem assignDefaults_eq (g : Grammar) :
    g.assignDefaults = assignDefault (g.mapChildren assignDefaults) := rewrite_eq _ g

theorem assignDefaults_nested (m : Mark) (entries : SymbolTable Grammar) :
    (table m .nested entries).assignDefaults =
      table (.ofPos m.pos) .nested (withDefault m.pos (entries.redefine fun entry => entry.2.assignDefaults)) :=
  assignDefaults_eq _

theorem assignDefault_of_plain (h : g.isNestedTable = false) : assignDefault g = g.withoutTapes := by
  unfold assignDefault
  split
  · cases h
  · rfl

theorem hasNested_assignDefaults (g : Grammar) : g.assignDefaults.hasNested = g.hasNested := by
  induction g using inductChildren with
  | step g ih =>
    rw [assignDefaults_eq]
    by_cases h : g.isNestedTable = true
    · cases g with
      | table m scoping entries =>
        cases scoping with
        | nested => rw [hasNested_eq, hasNested_eq (table m .nested entries)]; rfl
        | flat => cases h
      | _ => cases h
    · rw [assignDefault_of_plain (by simpa using h)]
      exact (hasNested_withMark ..).trans (hasNested_mapChildren ih)

theorem hasNested_defaultOf (pos : Option Position) (entries : List (String × Grammar)) :
    (defaultOf pos entries).hasNested = false :=
  hasNested_combine.mpr (List.forall_mem_map.mpr fun _ _ => rfl)

theorem mem_withDefault {pos : Option Position} {entries : SymbolTable Grammar} {entry : String × Grammar}
    (h : entry ∈ withDefault pos entries) : entry ∈ entries ∨ entry = (Symbol.allName, defaultOf pos entries) := by
  unfold withDefault at h
  split at h
  · exact Or.inl h
  · exact (List.mem_append.mp h).imp id List.mem_singleton.mp

theorem WellNested.assignDefaults (h : g.WellNested) : g.assignDefaults.WellNested := by
  induction h with
  | plain h => exact .plain (by rw [hasNested_assignDefaults]; exact h)
  | @collection m entries _ ih =>
    rw [assignDefaults_eq]
    refine .collection _ ?_
    intro entry he
    rcases mem_withDefault he with he | rfl
    · obtain ⟨original, ho, rfl⟩ := List.mem_map.mp he
      exact ih original ho
    · exact .plain (hasNested_defaultOf _ _)

/-! ## Flattening -/

@[simp] theorem definitions_eq (scope : List String) (entries : List (String × Grammar)) :
    definitions scope entries = entries.flatMap fun entry => definitionsOf scope entry.1 entry.2 := by
  induction entries with
  | nil => rfl
  | cons entry rest ih => rw [definitions, ih, List.flatMap_cons]

/-- What is left of well nested collections when all of them are taken apart has no collection in it. -/
theorem WellNested.hasNested_definition (h : g.WellNested) (scope : List String) (name : String) {d : Definition}
    (hd : d ∈ definitionsOf scope name g) : d.body.hasNested = false := by
  induction h generalizing scope name with
  | @plain g h =>
    unfold definitionsOf at hd
    split at hd
    · cases h
    · rw [List.mem_singleton.mp hd]
      exact h
  | @collection m entries _ ih =>
    rw [definitionsOf, definitions_eq] at hd
    obtain ⟨entry, he, hd⟩ := List.mem_flatMap.mp hd
    exact ih entry he _ _ hd

/-- Qualified names leave one flat table without collections. -/
theorem WellNested.qualifyNames {m : Mark} {entries : List (String × Grammar)}
    (h : (table m .nested entries).WellNested) :
    ∃ symbols, (table m .nested entries).qualifyNames.1 = table (.ofPos m.pos) .flat symbols ∧
      ∀ entry ∈ symbols, entry.2.hasNested = false := by
  refine ⟨_, rfl, ?_⟩
  intro entry he
  obtain ⟨d, hd, rfl⟩ := List.mem_map.mp he
  have hmem : d ∈ definitions [] entries := Definition.mem_of_mem_partition hd
  rw [definitions_eq] at hmem
  obtain ⟨member, hm, hd⟩ := List.mem_flatMap.mp hmem
  have hmember : member.2.WellNested := by
    cases h with
    | plain h => cases h
    | collection _ h => exact h member hm
  rw [hasNested_resolve]
  exact hmember.hasNested_definition [] member.1 hd

/-! ## Literals -/

theorem exists_literalsOfParts {parts : List Grammar} (h : ∀ part ∈ parts, ∃ m tape text, part = literal m tape text)
    (found : LiteralMap) : ∃ literals, literalsOfParts found parts = .ok literals := by
  induction parts generalizing found with
  | nil => exact ⟨found, rfl⟩
  | cons part rest ih =>
    obtain ⟨⟨m, tape, text, rfl⟩, hrest⟩ := List.forall_mem_cons.mp h
    exact ih hrest (found.merge (LiteralMap.insert ∅ tape text))

theorem IsRow.exists_literals (h : g.IsRow) : ∃ literals, g.literals = .ok literals := by
  obtain ⟨m, parts, rfl, hparts⟩ := h
  exact exists_literalsOfParts hparts ∅

end Grammar

theorem TestCase.exists_alphabet {tests : List TestCase} (h : ∀ test ∈ tests, test.input.IsRow) :
    ∃ literals, alphabet tests = .ok literals := by
  unfold alphabet
  generalize (∅ : LiteralMap) = found
  induction tests generalizing found with
  | nil => exact ⟨found, rfl⟩
  | cons test rest ih =>
    obtain ⟨htest, hrest⟩ := List.forall_mem_cons.mp h
    obtain ⟨more, hmore⟩ := Grammar.IsRow.exists_literals htest
    rw [List.foldlM_cons, hmore]
    exact ih hrest (found.merge more)

/-! ## Whole runs -/

@[simp] theorem Log.tests_report (log : Log) (message : Message) : (log.report message).tests = log.tests := by
  unfold report
  split <;> rfl

@[simp] theorem Log.tests_reportAll (log : Log) (messages : List Message) :
    (log.reportAll messages).tests = log.tests := by
  unfold reportAll
  induction messages generalizing log with
  | nil => rfl
  | cons message rest ih => rw [List.foldl_cons, ih, tests_report]

def Sheet.Tree.normal (workbook : Sheet.Tree) : Sheet.Tree := workbook.withTables.withTestColumns

theorem stages_fst (workbook : Sheet.Tree) (log : Log) :
    (stages workbook log).1 = workbook.normal.grammar.value.assignDefaults.qualifyNames.1.inferTapes.1 := rfl

theorem stages_tests (workbook : Sheet.Tree) (log : Log) :
    (stages workbook log).2.tests = log.tests ++ workbook.normal.grammar.tests := by
  show (Log.reportAll _ _).tests = _
  simp [Log.addTests, Sheet.Tree.normal]

/-- A sheet is read as a well nested collection, qualified names leave no collection in it, and tape inference takes
it. -/
theorem exists_inferTapes (tree : Sheet.Tree) :
    ∃ m symbols, (∀ n ∈ tree.grammar.value.assignDefaults.qualifyNames.1.nodes, n.isNestedTable = false) ∧
      tree.grammar.value.assignDefaults.qualifyNames.1.inferTapes.1 = .ok (.table m .flat symbols) := by
  obtain ⟨⟨hcollection, hnested⟩, -⟩ := tree.gives_grammar
  generalize tree.grammar.value = g at hcollection hnested
  cases g with
  | table m scoping entries =>
    cases scoping with
    | flat => cases hcollection
    | nested =>
      obtain ⟨symbols, hq, hflat⟩ := hnested.assignDefaults.qualifyNames
      change (Grammar.table m .nested entries).assignDefaults.qualifyNames.1 = _ at hq
      obtain ⟨out, hout⟩ := Inference.annotate_table_ok (m := .ofPos m.pos) hflat
      have ha := Inference.annotate_table hout
      rw [hq]
      refine ⟨_, _, ?_, ha.result⟩
      intro n hn
      exact Grammar.isNestedTable_of_mem_nodes_flat hflat hn
  | _ => cases hcollection

/-- Every workbook compiles to a flat table under any settings. On the way to it collections stand only directly in
collections, and after flattening nowhere; its tests are rows of literals. -/
theorem compile_total (settings : Settings) (workbook : Sheet.Tree) :
    ∃ program m symbols,
      (compile settings workbook).result = .ok program ∧
      program.grammar = .table m .flat symbols ∧
      workbook.normal.grammar.value.WellNested ∧
      (∀ n ∈ workbook.normal.grammar.value.assignDefaults.qualifyNames.1.nodes, n.isNestedTable = false) ∧
      workbook.normal.grammar.value.assignDefaults.qualifyNames.1.inferTapes.1 = .ok program.grammar ∧
      program.tests = workbook.normal.grammar.tests ∧
      ∀ test ∈ program.tests, test.input.IsRow ∧ ∃ literals, test.input.literals = .ok literals := by
  obtain ⟨⟨-, hnested⟩, hrows⟩ := workbook.normal.gives_grammar
  obtain ⟨m, symbols, hflat, htapes⟩ := exists_inferTapes workbook.normal
  obtain ⟨literals, hliterals⟩ := TestCase.exists_alphabet hrows
  have hresult := (stages_fst workbook { keepInfo := settings.reportInfo }).trans htapes
  have htests : (stages workbook { keepInfo := settings.reportInfo }).2.tests = workbook.normal.grammar.tests :=
    stages_tests workbook { keepInfo := settings.reportInfo }
  refine ⟨⟨.table m .flat symbols, workbook.normal.grammar.tests, literals⟩, m, symbols, ?_, rfl, hnested, hflat,
    htapes, rfl, ?_⟩
  · unfold compile
    simp only [hresult, htests, hliterals]
    rfl
  · intro test ht
    exact ⟨hrows test ht, Grammar.IsRow.exists_literals (hrows test ht)⟩

end SheetGrammar
