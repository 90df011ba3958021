import SheetGrammar.Cell

/-!
What the compiler tells the author of a workbook. A finding is a cause; its severity, text, code and help are read off
it here and nowhere else. A message is a finding at a position. A fault is not about the workbook: a stage was given a
grammar that it is not for, and the run ends.
-/

namespace SheetGrammar

inductive Severity where
  | error
  | warning
  | info
deriving DecidableEq, Repr

def Severity.name : Severity → String
  | .error => "error"
  | .warning => "warning"
  | .info => "info"

inductive Finding where
  /-- A column of a test grid that is neither a tape nor a comment. -/
  | nonLiteralTestHeader (header : String)
  /-- A grid directly under an operator that takes a table. -/
  | implicitTable (operator : String)
  | emptyTable
  /-- Content that no symbol is assigned to. -/
  | unassignedContent
  /-- A collection where a grammar is due. -/
  | misplacedCollection (name : String)
  /-- A test with nothing before it to test. -/
  | missingTestTarget (operator : String)
  | duplicateUniqueValue (header value : String)
  | duplicateSymbol (name : String)
  | unresolvedSymbol (name : String)
  /-- A second symbol of the same qualified name. -/
  | ambiguousSymbol (name : String)
  /-- A symbol that embeds itself; `cycle` is the path. -/
  | recursiveEmbed (symbol cycle : String)
  /-- A rename of a tape that the grammar does not have. -/
  | renameMissingTape (source target : String)
deriving DecidableEq, Repr

namespace Finding

def severity : Finding → Severity
  | nonLiteralTestHeader _ | duplicateSymbol _ | unresolvedSymbol _ | ambiguousSymbol _ | recursiveEmbed _ _
  | renameMissingTape _ _ => .error
  | emptyTable | unassignedContent | misplacedCollection _ | missingTestTarget _ | duplicateUniqueValue _ _ => .warning
  | implicitTable _ => .info

def text : Finding → String
  | nonLiteralTestHeader header => s!"Invalid test header: `{header}` is not a literal header"
  | implicitTable operator => s!"Implicit table: the grid under `{operator}` is treated as a table"
  | emptyTable => "Empty table: this table has no content"
  | unassignedContent => "Unassigned content: this content is not assigned to a symbol and will be ignored"
  | misplacedCollection name =>
    s!"Misplaced collection: `{name}` cannot be used inside an expression and will be ignored"
  | missingTestTarget operator => s!"Missing test target: there is no grammar before this `{operator}`"
  | duplicateUniqueValue header value =>
    s!"Duplicate value: `{value}` appears more than once in unique column `{header}`"
  | duplicateSymbol name => s!"Duplicate symbol: `{name}` is already defined in this collection"
  | unresolvedSymbol name => s!"Unknown symbol: cannot find `{name}`"
  | ambiguousSymbol name => s!"Ambiguous symbol: `{name}` is defined more than once after qualification"
  | recursiveEmbed symbol cycle => s!"Recursive embed: `{symbol}` refers to itself through {cycle}"
  | renameMissingTape source target =>
    s!"Invalid rename: cannot rename `{source}` to `{target}`, the grammar has no tape `{source}`"

def code : Finding → String
  | nonLiteralTestHeader _ => "gramble::non_literal_test_header"
  | implicitTable _ => "gramble::implicit_table"
  | emptyTable => "gramble::empty_table"
  | unassignedContent => "gramble::unassigned_content"
  | misplacedCollection _ => "gramble::misplaced_collection"
  | missingTestTarget _ => "gramble::missing_test_target"
  | duplicateUniqueValue _ _ => "gramble::duplicate_unique_value"
  | duplicateSymbol _ => "gramble::duplicate_symbol"
  | unresolvedSymbol _ => "gramble::unresolved_symbol"
  | ambiguousSymbol _ => "gramble::ambiguous_symbol"
  | recursiveEmbed _ _ => "gramble::recursive_embed"
  | renameMissingTape _ _ => "gramble::rename_missing_tape"

def help : Finding → Option String
  | nonLiteralTestHeader _ =>
    some "Test content can only contain tape columns (optionally marked unique); this column has been ignored"
  | unassignedContent => some "Start the block with `name =` to define a symbol"
  | misplacedCollection _ => some "Assign the collection to a symbol with `name =` and embed that symbol instead"
  | duplicateSymbol _ => some "Symbol names are case-insensitive; the first definition is used"
  | unresolvedSymbol name => some s!"Is `{name}` defined in this sheet or an enclosing one?"
  | recursiveEmbed _ _ => some "The symbol has been replaced by an empty grammar"
  | implicitTable _ | emptyTable | missingTestTarget _ | duplicateUniqueValue _ _ | ambiguousSymbol _
  | renameMissingTape _ _ => none

end Finding

structure Message where
  finding : Finding
  pos : Option Position := none
deriving DecidableEq, Repr

namespace Message

def severity (message : Message) : Severity := message.finding.severity

def isError (message : Message) : Bool := message.severity == .error

def isWarning (message : Message) : Bool := message.severity == .warning

end Message

/-- A grammar reached a stage that is not for it. -/
inductive Fault where
  | unsupportedNode (stage node : String)
  | unflattenedCollection (stage : String)
deriving DecidableEq, Repr

namespace Fault

def text : Fault → String
  | unsupportedNode stage node => s!"Internal error: pass `{stage}` cannot handle {node} nodes"
  | unflattenedCollection stage =>
    s!"Internal error: pass `{stage}` found a nested collection; names must be qualified first"

def code : Fault → String
  | unsupportedNode _ _ => "gramble::internal::unsupported_node"
  | unflattenedCollection _ => "gramble::internal::unflattened_collection"

end Fault

end SheetGrammar
