import SheetGrammar.Command

/-!
The arguments of the command line: a command, the file of a workbook, and options anywhere behind their names.
-/

namespace SheetGrammar.Invocation

structure Seen where
  words : List String := []
  config : Option String := none
  symbol : Option String := none

/-- Sorts the arguments; an option comes at most once and has a value. -/
def see? (seen : Seen) : List String → Option Seen
  | [] => some seen
  | "--config" :: path :: rest =>
    if seen.config.isSome then none else see? { seen with config := some path } rest
  | "--symbol" :: name :: rest | "-s" :: name :: rest =>
    if seen.symbol.isSome then none else see? { seen with symbol := some name } rest
  | word :: rest => if word.startsWith "-" then none else see? { seen with words := seen.words ++ [word] } rest

/-- The invocation that arguments ask for. Only `tapes` takes a symbol. -/
def ofArguments? (arguments : List String) : Option Invocation := do
  let seen ← see? {} arguments
  match seen.words, seen.symbol with
  | ["check", file], none => some { command := .check, file, config := seen.config }
  | ["tapes", file], symbol => some { command := .tapes symbol, file, config := seen.config }
  | ["show", file], none => some { command := .print, file, config := seen.config }
  | ["literals", file], none => some { command := .literals, file, config := seen.config }
  | _, _ => none

def usage : String :=
  "Usage: gramble [--config PATH] <check|show|literals> FILE\n" ++
    "       gramble [--config PATH] tapes FILE [--symbol NAME]\n"

def paths (invocation : Invocation) : List String := [invocation.config.getD defaultConfig, invocation.file]

end SheetGrammar.Invocation
