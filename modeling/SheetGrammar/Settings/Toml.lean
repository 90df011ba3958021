import SheetGrammar.Settings
import SheetGrammar.Toml.Document

/-!
Settings as a TOML document with the one table `compile` and in it two truth values. The table stands under its header,
or as dotted keys, or on one line; an array gives the values by their order. Anything else in a document is refused.
-/

namespace SheetGrammar.Settings

open Toml (Key Value Line)

structure Given where
  reportInfo : Option Bool := none
  failOnWarnings : Option Bool := none

/-- What is not given is as by default. -/
def Given.toSettings (given : Given) : Settings :=
  { reportInfo := given.reportInfo.getD ({} : Settings).reportInfo
    failOnWarnings := given.failOnWarnings.getD ({} : Settings).failOnWarnings }

/-- Takes one entry of the table; no entry comes twice. -/
def Given.add? (given : Given) (key : Key) (value : Value) : Option Given :=
  match key, value with
  | ["report_info"], .bool b => if given.reportInfo.isSome then none else some { given with reportInfo := some b }
  | ["fail_on_warnings"], .bool b =>
    if given.failOnWarnings.isSome then none else some { given with failOnWarnings := some b }
  | _, _ => none

def ofEntries? (entries : List (Key × Value)) : Option Settings :=
  (entries.foldlM (fun (given : Given) (key, value) => given.add? key value) {}).map Given.toSettings

/-- The first two items count. -/
def ofItems? : List Value → Option Settings
  | [] => some {}
  | [.bool first] => some { reportInfo := first }
  | .bool first :: .bool second :: _ => some ⟨first, second⟩
  | _ => none

def ofValue? : Value → Option Settings
  | .table entries => ofEntries? entries
  | .array items => ofItems? items
  | .bool _ | .scalar => none

/-- The entries of lines that are all entries under the given name. -/
def entriesUnder? (name : Key) : List Line → Option (List (Key × Value))
  | [] => some []
  | .entry key value :: rest =>
    if name.isPrefixOf key then (entriesUnder? name rest).map ((key.drop name.length, value) :: ·) else none
  | .header _ _ :: _ => none

def ofLines? : List Line → Option Settings
  | .header ["compile"] false :: rest => (entriesUnder? [] rest).bind ofEntries?
  | [.entry ["compile"] value] => ofValue? value
  | lines => (entriesUnder? ["compile"] lines).bind ofEntries?

def parse? (text : String) : Option Settings := (Toml.lines? text).bind ofLines?

end SheetGrammar.Settings
