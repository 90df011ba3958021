import SheetGrammar.Diagnostic
import SheetGrammar.Grammar.Basic

/-!
What a run of the compiler leaves besides its result: the messages, in the order in which they were reported, and the
tests that the workbook asks for. Information that is not a warning or an error is kept only if the settings want it.

A pass never asks what was reported before it. So passes are writers, functions that give messages besides their value,
and the log is threaded only from stage to stage.
-/

namespace SheetGrammar

/-- A row of literals that a symbol must accept, or refuse if the test is negated. -/
structure TestCase where
  symbol : String
  pos : Option Position
  input : Grammar
  negated : Bool

structure Log where
  keepInfo : Bool := true
  messages : List Message := []
  tests : List TestCase := []

namespace Log

def keeps (log : Log) (message : Message) : Bool := log.keepInfo || message.severity ≠ .info

def report (log : Log) (message : Message) : Log :=
  if log.keeps message then { log with messages := log.messages ++ [message] } else log

def reportAll (log : Log) (messages : List Message) : Log := messages.foldl report log

def addTests (log : Log) (tests : List TestCase) : Log := { log with tests := log.tests ++ tests }

end Log

/-- A stage of the compiler: it makes one thing of another and adds to the log. -/
abbrev Stage (α β : Type) := α → Log → Except Fault β × Log

namespace Stage

/-- One stage after the other; a fault of the first ends the run. -/
def andThen {α β γ : Type} (first : Stage α β) (second : Stage β γ) : Stage α γ := fun a log =>
  match first a log with
  | (.ok b, log) => second b log
  | (.error fault, log) => (.error fault, log)

/-- A stage that cannot fail and only reports. -/
def reporting {α β : Type} (f : α → β × List Message) : Stage α β := fun a log =>
  (.ok (f a).1, log.reportAll (f a).2)

end Stage

end SheetGrammar
