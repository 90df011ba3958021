import SheetGrammar.Canonical.Printer
import SheetGrammar.Compilation
import SheetGrammar.Settings.Toml
import SheetGrammar.Sheet.Decode

/-!
The commands on a workbook. A command reads the settings, then the workbook, compiles it and prints one thing about it;
the messages of the compiler go to the other channel. What a command does depends on the contents of two files only.
-/

namespace SheetGrammar

inductive ReadFault where
  | missing
  /-- Something on the way is a file. -/
  | notDirectory
  /-- It is a directory itself. -/
  | isDirectory
  /-- The path or a name in it is too long. -/
  | nameTooLong
  | nulInName
  | other (reason : String)
deriving DecidableEq, Repr

def ReadFault.text : ReadFault → String
  | missing => "No such file or directory (os error 2)"
  | notDirectory => "Not a directory (os error 20)"
  | isDirectory => "Is a directory (os error 21)"
  | nameTooLong => "File name too long (os error 36)"
  | nulInName => "file name contained an unexpected NUL byte"
  | other reason => reason

inductive Command where
  /-- Whether the workbook compiles. -/
  | check
  /-- The tapes of all symbols, or of one. -/
  | tapes (symbol : Option String)
  /-- The compiled grammar. -/
  | print
  /-- The literals of the tests. -/
  | literals
deriving DecidableEq, Repr

structure Invocation where
  command : Command
  file : String
  config : Option String := none
deriving DecidableEq, Repr

inductive Failure where
  | unreadable (path : String)
  | undecodable (path : String)
  | unreadableSettings (path : String) (fault : ReadFault)
  | malformedSettings
  | internal (fault : Fault)
  | unknownSymbol (name : String)
  | checkFailed (errors warnings : Nat)

namespace Failure

/-- What is said about a failure, unless it is about the words of a settings file. -/
def text? : Failure → Option String
  | unreadable path => some ("Failed to read file " ++ path)
  | undecodable path => some ("Failed to decode the syntax tree in " ++ path)
  | unreadableSettings path fault => some ("Error reading configuration " ++ path ++ ": " ++ fault.text)
  | malformedSettings => none
  | internal fault => some fault.text
  | unknownSymbol name => some ("No symbol named `" ++ name ++ "`")
  | checkFailed errors warnings =>
    some ("Check failed with " ++ toString errors ++ " error(s) and " ++ toString warnings ++ " warning(s)")

def code : Failure → String
  | unreadable _ => "gramble::cli::io_error"
  | undecodable _ => "gramble::cli::json_error"
  | unreadableSettings _ _ => "CONFIG-001"
  | malformedSettings => "CONFIG-002"
  | internal fault => fault.code
  | unknownSymbol _ => "gramble::cli::unknown_symbol"
  | checkFailed _ _ => "gramble::cli::check_failed"

def help? : Failure → Option String
  | undecodable _ => some "The input must be a JSON-serialized tabular syntax tree"
  | unreadableSettings _ _ => some "Check file permissions and ensure the file is not corrupted"
  | malformedSettings => some "Check your gramble.toml syntax; only the [compile] table is recognized"
  | unknownSymbol _ => some "Use the qualified name, e.g. `Sheet.symbol`"
  | unreadable _ | internal _ | checkFailed _ _ => none

end Failure

def Severity.label : Severity → String
  | .error => "error"
  | .warning => "warning"
  | .info => "advice"

def reportText (text : String) (severity : Severity) (help : Option String) (code : String) : String :=
  text ++ "\n    Diagnostic severity: " ++ severity.label ++ "\n" ++
    (help.map fun h => "diagnostic help: " ++ h ++ "\n").getD "" ++ "diagnostic code: " ++ code ++ "\n\n"

def Message.report (message : Message) : String :=
  let place := (message.pos.map fun pos => pos.render ++ ": ").getD ""
  reportText (place ++ message.finding.text) message.severity message.finding.help message.finding.code

structure Report where
  output : String := ""
  messages : String := ""
  failure : Option Failure := none

abbrev Files := String → Except ReadFault String

namespace Invocation

/-- The settings file that is read when none is named. -/
def defaultConfig : String := "gramble.toml"

def settingsFrom (path : String) : Except ReadFault String → Except Failure Settings
  | .error fault => .error (.unreadableSettings path fault)
  | .ok text =>
    match Settings.parse? text with
    | some settings => .ok settings
    | none => .error .malformedSettings

/-- The settings of a command. A file that is named has to be there; the default one need not, and counts only if it is
a file. -/
def settings (invocation : Invocation) (files : Files) : Except Failure Settings :=
  match invocation.config, files defaultConfig with
  | some path, _ => settingsFrom path (files path)
  | none, .error .missing | none, .error .isDirectory => .ok {}
  | none, content => settingsFrom ("./" ++ defaultConfig) content

def workbook (invocation : Invocation) (files : Files) : Except Failure Sheet.Tree :=
  match files invocation.file with
  | .error _ => .error (.unreadable invocation.file)
  | .ok text =>
    match Sheet.Tree.decode text with
    | .ok tree => .ok tree
    | .error _ => .error (.undecodable invocation.file)

end Invocation

def Program.tapesLine (program : Program) (name : String) : String :=
  name ++ ": " ++ ((program.tapesOf? name).map TapeSet.render).getD "" ++ "\n"

def Command.output (command : Command) (file : String) (settings : Settings) (run : Compilation) :
    Except Failure String :=
  match run.result, command with
  | .error fault, _ => .error (.internal fault)
  | .ok _, .check =>
    if run.failed settings.failOnWarnings then .error (.checkFailed run.errors.length run.warnings.length)
    else .ok ("✅ " ++ file ++ " checked successfully.\n")
  | .ok program, .tapes none => .ok (String.join (program.symbolNames.map program.tapesLine))
  | .ok program, .tapes (some name) =>
    if (program.symbol? name).isSome then .ok (program.tapesLine name) else .error (.unknownSymbol name)
  | .ok program, .print => .ok (program.grammar.render ++ "\n")
  | .ok program, .literals => .ok (if program.literals.isEmpty then "(no test inputs)\n" else program.literals.render)

/-- Runs a command on the contents of files. -/
def Invocation.run (invocation : Invocation) (files : Files) : Report :=
  match invocation.settings files with
  | .error failure => { failure := some failure }
  | .ok settings =>
    match invocation.workbook files with
    | .error failure => { failure := some failure }
    | .ok tree =>
      let run := compile settings tree
      let messages := String.join (run.messages.map Message.report)
      match invocation.command.output invocation.file settings run with
      | .ok output => { output, messages }
      | .error failure => { messages, failure := some failure }

end SheetGrammar
