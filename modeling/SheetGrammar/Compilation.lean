import SheetGrammar.Grammar.Literals
import SheetGrammar.Grammar.Stages
import SheetGrammar.Settings
import SheetGrammar.Sheet.Stages

/-!
A workbook compiled: one flat table of symbols with their tapes, the tests, and the literals of the tests. Mistakes in a
workbook are messages beside the result and never end a run.
-/

namespace SheetGrammar

structure Program where
  grammar : Grammar
  tests : List TestCase := []
  /-- The literals of all tests. -/
  literals : LiteralMap := ∅

namespace Program

/-- The symbols of the program, if its grammar is a flat table. -/
def symbols (program : Program) : SymbolTable Grammar :=
  match program.grammar with
  | .table _ .flat entries => entries
  | _ => []

/-- What a symbol stands for; case does not count. -/
def symbol? (program : Program) (name : String) : Option Grammar := program.symbols.get? name

def tapesOf? (program : Program) (name : String) : Option TapeSet := (program.symbol? name).bind Grammar.tapes

def symbolNames (program : Program) : List String := program.symbols.names

end Program

def TestCase.alphabet (tests : List TestCase) : Except Fault LiteralMap :=
  tests.foldlM (fun found test => return found.merge (← test.input.literals)) ∅

structure Compilation where
  result : Except Fault Program
  messages : List Message

namespace Compilation

def errors (run : Compilation) : List Message := run.messages.filter (·.isError)

def warnings (run : Compilation) : List Message := run.messages.filter (·.isWarning)

def hasErrors (run : Compilation) : Bool := run.messages.any (·.isError)

def failed (run : Compilation) (failOnWarnings : Bool) : Bool :=
  !run.result.isOk || run.hasErrors || (failOnWarnings && !run.warnings.isEmpty)

end Compilation

def stages : Stage Sheet.Tree Grammar := Sheet.Tree.interpretation.andThen Grammar.resolution

def compile (settings : Settings) (workbook : Sheet.Tree) : Compilation :=
  let (result, log) := stages workbook { keepInfo := settings.reportInfo }
  { result := do
      let grammar ← result
      return { grammar, tests := log.tests, literals := ← TestCase.alphabet log.tests }
    messages := log.messages }

end SheetGrammar
