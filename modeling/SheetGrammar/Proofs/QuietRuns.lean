import SheetGrammar.Proofs.NormalReading

/-!
Runs that keep no information. One log goes through all stages of a run, and it drops what it does not keep at the
moment of the report. So two runs that keep different things hand different logs from stage to stage.

Inside a stage no log is threaded. No pass reads the log that it reports to, so each is written as a writer: it makes a
value and a list of messages of its input alone, and the stage puts the messages into the log. That a stage does not
depend on its log is therefore part of how passes are modelled, and `Stage.oblivious_reporting` holds whatever the pass
is. What is proved here is about the logs: dropping information at each report, in whatever stage, comes to the same as
dropping it from the whole at the end.

- `Log.quiet`: what a log would be if information had never been kept.
- `Log.quiet_reportAll`: a quiet log that is reported to is the quiet form of the log that is.
- `Stage.Oblivious`: a stage that makes the same of its input on a log and on its quiet form, and leaves such a pair
  behind.
- `Stage.Oblivious.andThen`: stages one after the other are oblivious if each is, so all of a run is
  (`oblivious_stages`).
- `compile_messages`: what a run reports is what its stages find, as far as it is kept.
- `compile_quiet`: a run that keeps no information is a run that does, with the information left out.
-/

namespace SheetGrammar

def Message.isSevere (message : Message) : Bool := message.severity ≠ .info

namespace Log

variable (log : Log)

def quiet : Log := { log with keepInfo := false, messages := log.messages.filter (·.isSevere) }

theorem keeps_quiet : log.quiet.keeps = Message.isSevere := rfl

theorem keeps_of_isSevere {message : Message} (h : message.isSevere = true) : log.keeps message = true := by
  have hsevere : message.severity ≠ .info := by simpa [Message.isSevere] using h
  simp [keeps, hsevere]

/-- Information that is reported is dropped at once by the quiet log, and sooner or later by the other. -/
theorem quiet_report (message : Message) : (log.report message).quiet = log.quiet.report message := by
  by_cases hsevere : message.isSevere = true
  · rw [report, if_pos (log.keeps_of_isSevere hsevere), report, keeps_quiet, if_pos hsevere]
    simp [quiet, List.filter_append, hsevere]
  · have hquiet : log.quiet.report message = log.quiet := by rw [report, keeps_quiet, if_neg hsevere]
    rw [hquiet, report]
    split
    · simp [quiet, List.filter_append, hsevere]
    · rfl

theorem quiet_reportAll (messages : List Message) : (log.reportAll messages).quiet = log.quiet.reportAll messages := by
  induction messages generalizing log with
  | nil => rfl
  | cons message rest ih =>
    show ((log.report message).reportAll rest).quiet = (log.quiet.report message).reportAll rest
    rw [ih, quiet_report]

theorem keeps_reportAll (messages : List Message) : (log.reportAll messages).keeps = log.keeps := by
  induction messages generalizing log with
  | nil => rfl
  | cons message rest ih =>
    show ((log.report message).reportAll rest).keeps = log.keeps
    rw [ih, keeps_report]

theorem keeps_addTests (tests : List TestCase) : (log.addTests tests).keeps = log.keeps := rfl

theorem messages_addTests (tests : List TestCase) : (log.addTests tests).messages = log.messages := rfl

theorem quiet_addTests (tests : List TestCase) : (log.addTests tests).quiet = log.quiet.addTests tests := rfl

end Log

/-! ## Stages -/

namespace Stage

variable {α β γ : Type} {first : Stage α β} {second : Stage β γ}

/-- The stage makes the same of its input on a log and on its quiet form, and leaves a log and its quiet form. -/
def Oblivious (stage : Stage α β) : Prop := ∀ a log, stage a log.quiet = ((stage a log).1, (stage a log).2.quiet)

theorem Oblivious.andThen (hfirst : first.Oblivious) (hsecond : second.Oblivious) :
    (first.andThen second).Oblivious := by
  intro a log
  unfold Stage.andThen
  rw [hfirst a log]
  rcases first a log with ⟨_ | b, middle⟩
  · rfl
  · exact hsecond b middle

theorem oblivious_reporting (f : α → β × List Message) : (reporting f).Oblivious := by
  intro a log
  rw [reporting, reporting, Log.quiet_reportAll]

end Stage

theorem Sheet.Tree.oblivious_grammarStage : Sheet.Tree.grammarStage.Oblivious := by
  intro tree log
  rw [grammarStage, grammarStage, Log.quiet_addTests, Log.quiet_reportAll]

theorem Grammar.oblivious_tapesStage : Grammar.tapesStage.Oblivious := by
  intro g log
  rw [tapesStage, tapesStage, Log.quiet_reportAll]

/-- A run on the quiet form of a log is the quiet form of the run. -/
theorem oblivious_stages : stages.Oblivious := by
  have htables : Sheet.Tree.tablesStage.Oblivious := Stage.oblivious_reporting _
  have hcolumns : Sheet.Tree.testColumnsStage.Oblivious := Stage.oblivious_reporting _
  have hdefaults : Grammar.defaultsStage.Oblivious := Stage.oblivious_reporting _
  have hnames : Grammar.namesStage.Oblivious := Stage.oblivious_reporting _
  have hread := (htables.andThen hcolumns).andThen Sheet.Tree.oblivious_grammarStage
  exact hread.andThen ((hdefaults.andThen hnames).andThen Grammar.oblivious_tapesStage)

/-! ## Whole runs -/

def Sheet.Tree.reports (workbook : Sheet.Tree) : List Message :=
  let g := workbook.grammar.value.assignDefaults
  workbook.implicitTables ++ workbook.withTables.misfits ++ workbook.grammar.messages ++ g.qualifyNames.2 ++
    g.qualifyNames.1.inferTapes.2

/-- A run reports what its stages find, as far as it is kept. -/
theorem compile_messages (settings : Settings) (workbook : Sheet.Tree) :
    (compile settings workbook).messages = workbook.reports.filter fun message =>
      settings.reportInfo || message.isSevere := by
  let fresh : Log := { keepInfo := settings.reportInfo }
  let g := workbook.normal.grammar.value.assignDefaults
  have hrun : (compile settings workbook).messages =
      (((((fresh.reportAll workbook.implicitTables).reportAll workbook.withTables.misfits).reportAll
        workbook.normal.grammar.messages).addTests workbook.normal.grammar.tests).reportAll
        g.qualifyNames.2 |>.reportAll g.qualifyNames.1.inferTapes.2).messages := rfl
  have hkeeps (message : Message) : fresh.keeps message = (settings.reportInfo || message.isSevere) := rfl
  simp only [hrun, Log.messages_reportAll, Log.messages_addTests, Log.keeps_reportAll, Log.keeps_addTests]
  simp only [Sheet.Tree.reports, List.filter_append, ← hkeeps, ← Sheet.Tree.grammar_normal workbook]
  rfl

/-- Whether information is kept changes nothing about what a workbook compiles to. The run that keeps none reports what
the other does, in the same order, with the information left out; and the other reports all that is found. -/
theorem compile_quiet (settings : Settings) (workbook : Sheet.Tree) :
    let loud := compile { settings with reportInfo := true } workbook
    let quiet := compile { settings with reportInfo := false } workbook
    quiet.result = loud.result ∧
      quiet.messages = loud.messages.filter (fun message => message.severity ≠ .info) ∧
      loud.messages = workbook.reports := by
  intro loud quiet
  -- before anything is reported, the log that keeps no information is the quiet form of the other
  have hstages : stages workbook { keepInfo := false } =
      ((stages workbook { keepInfo := true }).1, (stages workbook { keepInfo := true }).2.quiet) :=
    oblivious_stages workbook { keepInfo := true }
  refine ⟨?_, ?_, ?_⟩
  · simp only [loud, quiet, compile, hstages]
    rfl
  · simp only [loud, quiet, compile, hstages]
    rfl
  · simp [loud, compile_messages]

end SheetGrammar
