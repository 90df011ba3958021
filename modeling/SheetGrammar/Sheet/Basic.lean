import SheetGrammar.Cell

/-!
Sheets as the compiler takes them: a tree of operators, grids and collections. An operator stands in a cell and has the
content to the right of it as its child and the content above it as its sibling. A grid has a header for each column;
the cells of a row stand under the headers by their index, and a row may be shorter or longer than the headers.
-/

namespace SheetGrammar.Sheet

inductive Header where
  /-- Texts on a tape. -/
  | tape (name : String)
  /-- As the inner header, and no cell twice. -/
  | unique (inner : Header)
  /-- Names of symbols. -/
  | embed
  /-- Names of symbols, with one tape renamed. -/
  | rename (source target : String)
  /-- Alternatives, divided by bars, on a tape. -/
  | choice (tape : String)
  | comment
deriving DecidableEq, Repr

namespace Header

/-- The tape that the cells of a column are literals on. -/
def literalTape? : Header → Option String
  | tape name => some name
  | unique inner => inner.literalTape?
  | embed | rename _ _ | choice _ | comment => none

def isLiteral (header : Header) : Bool := header.literalTape?.isSome

def isComment : Header → Bool
  | comment => true
  | _ => false

def isUnique : Header → Bool
  | unique _ => true
  | _ => false

def render : Header → String
  | tape name => name
  | unique inner => "unique " ++ inner.render
  | embed => "embed"
  | rename source target => "rename " ++ source ++ ">" ++ target
  | choice name => "choice " ++ name
  | comment => "%"

end Header

structure Column where
  header : Header
  pos : Position
deriving DecidableEq, Repr

structure Row where
  pos : Position
  cells : List Cell
deriving DecidableEq, Repr

/-- The cell under a column, if there is one and it is not blank. -/
def Row.cell? (row : Row) (index : Nat) : Option Cell := row.cells[index]?.filter (!·.isBlank)

structure Grid where
  cell : Cell
  columns : List Column
  rows : List Row
deriving DecidableEq, Repr

/-- Takes out a header and the cells under it, where there are any. -/
def Grid.removeColumn (grid : Grid) (index : Nat) : Grid :=
  { grid with
    columns := grid.columns.eraseIdx index
    rows := grid.rows.map fun row => { row with cells := row.cells.eraseIdx index } }

inductive Operator where
  | table
  | test
  | testNot
  | or
  | assign (name : String)
deriving DecidableEq, Repr

namespace Operator

def takesGrid : Operator → Bool
  | table | test | testNot => true
  | or | assign _ => false

def isTest : Operator → Bool
  | test | testNot => true
  | table | or | assign _ => false

def render : Operator → String
  | table => "table"
  | test => "test"
  | testNot => "testnot"
  | or => "or"
  | assign name => name ++ " ="

end Operator

inductive Tree where
  | op (cell : Cell) (operator : Operator) (sibling child : Tree)
  | grid (grid : Grid)
  | collection (cell : Cell) (name : String) (children : List Tree)
  | empty
deriving Repr

namespace Tree

instance : Inhabited Tree := ⟨empty⟩

def pos? : Tree → Option Position
  | op cell _ _ _ => some cell.pos
  | grid content => some content.cell.pos
  | collection cell _ _ => some cell.pos
  | empty => none

def isEmpty : Tree → Bool
  | empty => true
  | _ => false

def isGrid : Tree → Bool
  | grid _ => true
  | _ => false

def tag : Tree → String
  | op _ _ _ _ => "op"
  | grid _ => "grid"
  | collection _ _ _ => "collection"
  | empty => "empty"

end Tree

end SheetGrammar.Sheet
