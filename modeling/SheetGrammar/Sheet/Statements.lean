import SheetGrammar.Sheet.Rows
import SheetGrammar.SymbolTable

/-!
The grammar of a sheet. A collection holds statements: definitions of symbols, and content that belongs to none. What is
above an assignment comes before it. Of two definitions of one name in a collection the first holds.
-/

namespace SheetGrammar.Sheet

/-- The grammar of the content of a symbol, whose qualified name is `symbol`. -/
def Tree.body (symbol : String) : Tree → Reading Grammar
  | .empty => pure (.epsilon {})
  | .grid content => content.grammar
  | .collection cell name _ => do
    Reading.report (.misplacedCollection name) (some cell.pos)
    return .epsilon (.ofPos (some cell.pos))
  | .op cell .table sibling child => do
    unless sibling.isEmpty do Reading.report .unassignedContent sibling.pos?
    if child.isEmpty then do
      Reading.report .emptyTable (some cell.pos)
      return .epsilon (.ofPos (some cell.pos))
    else child.body symbol
  | .op cell .or sibling child => do
    let left ← sibling.body symbol
    let right ← child.body symbol
    return .combine (.ofPos (some cell.pos)) .alternation [left, right]
  | .op cell .test sibling child => do
    let tested ← if sibling.isEmpty then untested cell .test else sibling.body symbol
    testsIn symbol cell false child
    return tested
  | .op cell .testNot sibling child => do
    let tested ← if sibling.isEmpty then untested cell .testNot else sibling.body symbol
    testsIn symbol cell true child
    return tested
  | .op cell (.assign _) _ child => do
    Reading.report .unassignedContent (some cell.pos)
    child.body symbol
where
  /-- A test of nothing. -/
  untested (cell : Cell) (operator : Operator) : Reading Grammar := do
    Reading.report (.missingTestTarget operator.render) (some cell.pos)
    return .epsilon (.ofPos (some cell.pos))
  /-- The tests under a test operator. -/
  testsIn (symbol : String) (cell : Cell) (negated : Bool) : Tree → Reading Unit
    | .grid content => Reading.ask (content.tests symbol negated)
    | .empty => Reading.report .emptyTable (some cell.pos)
    | other => Reading.report .unassignedContent other.pos?

inductive Statement where
  | definition (name : String) (pos : Position) (body : Reading Grammar)
  | stray (pos : Option Position)

namespace Statement

def addTo (table : SymbolTable Grammar) : Statement → Reading (SymbolTable Grammar)
  | definition name pos body => do
    let g ← body
    if table.contains name then
      Reading.report (.duplicateSymbol name) (some pos)
      return table
    else return table.insert name g
  | stray pos => do
    Reading.report .unassignedContent pos
    return table

/-- The table that statements define, one after the other. -/
def tableOf (statements : List Statement) : Reading (SymbolTable Grammar) := statements.foldlM addTo []

def grammarOf (pos : Option Position) (statements : List Statement) : Reading Grammar := do
  return .table (.ofPos pos) .nested (← tableOf statements)

end Statement

namespace Tree

mutual

/-- The statements that a tree makes inside the collections named in `scope`. -/
def statements (scope : List String) : Tree → List Statement
  | .empty => []
  | .collection cell name children =>
    [.definition name cell.pos (Statement.grammarOf (some cell.pos) (allStatements (scope ++ [name]) children))]
  | .op cell (.assign name) sibling child =>
    sibling.statements scope ++ [.definition name cell.pos (child.definiens (scope ++ [name]))]
  | .op cell _ _ _ => [.stray (some cell.pos)]
  | .grid content => [.stray (some content.cell.pos)]

/-- What a symbol is defined as; `path` leads to the symbol. -/
def definiens (path : List String) : Tree → Reading Grammar
  | .collection cell _ children => Statement.grammarOf (some cell.pos) (allStatements path children)
  | .op cell operator sibling child => body (String.intercalate "." path) (.op cell operator sibling child)
  | .grid content => body (String.intercalate "." path) (.grid content)
  | .empty => body (String.intercalate "." path) .empty

def allStatements (scope : List String) : List Tree → List Statement
  | [] => []
  | tree :: rest => tree.statements scope ++ allStatements scope rest

end

/-- The grammar of a workbook. A tree that is no collection counts as the only statement of one without a name. -/
def grammar : Tree → Reading Grammar
  | .collection cell _ children => Statement.grammarOf (some cell.pos) (allStatements [] children)
  | other => Statement.grammarOf other.pos? (other.statements [])

end Tree

end SheetGrammar.Sheet
