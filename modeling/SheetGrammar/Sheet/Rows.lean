import SheetGrammar.Sheet.Reading
import SheetGrammar.Sheet.Basic
import SheetGrammar.TapeSet
import SheetGrammar.Text.Blank

/-!
The grammar of a grid: an alternation of its rows, each the sequence of its cells in the order of the headers. Blank
cells and comments give nothing.
-/

namespace SheetGrammar.Sheet

def Header.grammar (cell : Cell) : Header → Option Grammar
  | tape name => some (.literal mark name cell.text)
  | unique inner => inner.grammar cell
  | embed => some symbol
  | rename source target => some (.relabel mark (.rename source target) symbol)
  | choice name =>
    let pieces := (cell.text.splitOn "|").map fun piece => Grammar.literal mark anonymousTape (Text.trim piece)
    some (.relabel mark (.single name) (.combine mark .alternation pieces))
  | comment => none
where
  mark : Mark := .ofPos (some cell.pos)
  symbol : Grammar := .embed mark (Text.trim cell.text)

namespace Grid

/-- The cells of a row that are not blank, each with its column. -/
def cellsOf (grid : Grid) (row : Row) : List (Column × Cell) :=
  grid.columns.zipIdx.filterMap fun (column, index) => (row.cell? index).map fun cell => (column, cell)

def rowGrammar (grid : Grid) (row : Row) : Grammar :=
  .combine (.ofPos (some row.pos)) .sequence
    ((grid.cellsOf row).filterMap fun (column, cell) => column.header.grammar cell)

/-- The cells of a column that are not blank, from the top. -/
def column (grid : Grid) (index : Nat) : List Cell := grid.rows.filterMap (·.cell? index)

/-- The cells whose text stands in an earlier cell or in `seen`. -/
def repeated (seen : List String) : List Cell → List Cell
  | [] => []
  | cell :: rest => if cell.text ∈ seen then cell :: repeated seen rest else repeated (cell.text :: seen) rest

/-- The messages on texts that stand twice in a column that forbids it. -/
def duplicates (grid : Grid) : List Message :=
  grid.columns.zipIdx.flatMap fun (column, index) =>
    if column.header.isUnique then
      (repeated [] (grid.column index)).map fun cell =>
        ⟨.duplicateUniqueValue column.header.render cell.text, some cell.pos⟩
    else []

def grammar (grid : Grid) : Reading Grammar :=
  let mark : Mark := .ofPos (some grid.cell.pos)
  if grid.rows.isEmpty then do
    Reading.report .emptyTable mark.pos
    return .epsilon mark
  else do
    Reading.reportAll grid.duplicates
    return .combine mark .alternation (grid.rows.map grid.rowGrammar)

def testInput (grid : Grid) (row : Row) : Grammar :=
  .combine (.ofPos (some row.pos)) .sequence
    ((grid.cellsOf row).filterMap fun (column, cell) =>
      column.header.literalTape?.map fun tape => .literal (.ofPos (some cell.pos)) tape cell.text)

def tests (grid : Grid) (symbol : String) (negated : Bool) : List TestCase :=
  grid.rows.map fun row => { symbol, pos := some row.pos, input := grid.testInput row, negated }

end Grid

end SheetGrammar.Sheet
