import SheetGrammar.Text.Blank

/-!
Cells of a spreadsheet and their positions. Rows and columns count from zero and fit in 64 bits.
-/

namespace SheetGrammar

/-- A place in a workbook. Positions are ordered by sheet, then row, then column. -/
structure Position where
  sheet : String
  row : UInt64
  col : UInt64
deriving DecidableEq, Ord, Repr

/-- `Sheet:row:column`. -/
def Position.render (pos : Position) : String :=
  pos.sheet ++ ":" ++ toString pos.row.toNat ++ ":" ++ toString pos.col.toNat

structure Cell where
  text : String
  pos : Position
deriving DecidableEq, Repr

def Cell.isBlank (cell : Cell) : Bool := Text.isBlankText cell.text

end SheetGrammar
