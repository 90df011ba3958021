import SheetGrammar.Json.Value
import SheetGrammar.Sheet.Basic

/-!
Sheets as JSON, with every field written out. Trees, operators and headers are tagged objects.
-/

namespace SheetGrammar

open Json (Value)

def Position.encode (pos : Position) : Value :=
  .object [("sheet", .string pos.sheet), ("row", .number (.natural pos.row)), ("col", .number (.natural pos.col))]

def Cell.encode (cell : Cell) : Value := .object [("text", .string cell.text), ("pos", cell.pos.encode)]

namespace Sheet

def Header.encode : Header → Value
  | .tape name => .object [("kind", .string "tape"), ("name", .string name)]
  | .unique inner => .object [("kind", .string "unique"), ("inner", inner.encode)]
  | .embed => .object [("kind", .string "embed")]
  | .rename source target =>
    .object [("kind", .string "rename"), ("from", .string source), ("to", .string target)]
  | .choice name => .object [("kind", .string "choice"), ("tape", .string name)]
  | .comment => .object [("kind", .string "comment")]

def Column.encode (column : Column) : Value :=
  .object [("header", column.header.encode), ("pos", column.pos.encode)]

def Row.encode (row : Row) : Value :=
  .object [("pos", row.pos.encode), ("cells", .array (row.cells.map Cell.encode))]

def Operator.encode : Operator → Value
  | .table => .object [("kind", .string "table")]
  | .test => .object [("kind", .string "test")]
  | .testNot => .object [("kind", .string "testnot")]
  | .or => .object [("kind", .string "or")]
  | .assign name => .object [("kind", .string "assign"), ("name", .string name)]

mutual

def Tree.encode : Tree → Value
  | .op cell operator sibling child =>
    .object [("type", .string "op"), ("cell", cell.encode), ("op", operator.encode), ("sibling", sibling.encode),
      ("child", child.encode)]
  | .grid content =>
    .object [("type", .string "grid"), ("cell", content.cell.encode),
      ("headers", .array (content.columns.map Column.encode)), ("rows", .array (content.rows.map Row.encode))]
  | .collection cell name children =>
    .object [("type", .string "collection"), ("cell", cell.encode), ("name", .string name),
      ("children", .array (Tree.encodeAll children))]
  | .empty => .object [("type", .string "empty")]

def Tree.encodeAll : List Tree → List Value
  | [] => []
  | tree :: rest => tree.encode :: Tree.encodeAll rest

end

end Sheet

end SheetGrammar
