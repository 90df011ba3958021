import SheetGrammar.Command.Arguments

/-!
The command line.
-/

open SheetGrammar

def readPath (path : String) : IO (Except ReadFault String) := do
  try return .ok (← IO.FS.readFile path)
  catch
    | .noFileOrDirectory .. => return .error .missing
    | e => return .error (.other (toString e))

def main (arguments : List String) : IO UInt32 := do
  match Invocation.ofArguments? arguments with
  | none =>
    (← IO.getStderr).putStr Invocation.usage
    return 2
  | some invocation =>
    let contents ← invocation.paths.mapM fun path => do return (path, ← readPath path)
    let report := invocation.run fun path => (contents.lookup path).getD (.error .missing)
    (← IO.getStderr).putStr report.messages
    match report.failure with
    | none =>
      (← IO.getStdout).putStr report.output
      return 0
    | some failure =>
      let text := failure.text?.getD "Invalid configuration"
      (← IO.getStderr).putStr (reportText text .error failure.help? failure.code)
      return 1
