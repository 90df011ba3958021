import SheetGrammar.Diagnostic
import SheetGrammar.Sheet.Basic

/-!
The rows of a test are texts on tapes. In a grid under `test` or `testnot` every column that is neither literal nor a
comment is a mistake, reported at its header, and is taken out with the cells under it.
-/

namespace SheetGrammar.Sheet

def Header.fitsTest (header : Header) : Bool := header.isLiteral || header.isComment

namespace Grid

/-- The indices of the columns that may not stand in a test, with the columns. -/
def misfits (grid : Grid) : List (Column × Nat) := grid.columns.zipIdx.filter fun (column, _) => !column.header.fitsTest

/-- The grid without the columns that may not stand in a test. The last goes first, so the others keep their index. -/
def forTest (grid : Grid) : Grid := grid.misfits.foldr (fun (_, index) grid => grid.removeColumn index) grid

def misfitMessages (grid : Grid) : List Message :=
  grid.misfits.map fun (column, _) => ⟨.nonLiteralTestHeader column.header.render, some column.pos⟩

end Grid

namespace Tree

def fitted (operator : Operator) : Tree → Tree
  | grid content => grid (if operator.isTest then content.forTest else content)
  | tree => tree

mutual

/-- Takes the columns out of all tests that may not stand in one. -/
def withTestColumns : Tree → Tree
  | op cell operator sibling child => op cell operator sibling.withTestColumns (fitted operator child.withTestColumns)
  | grid content => grid content
  | collection cell name children => collection cell name (allWithTestColumns children)
  | empty => empty

def allWithTestColumns : List Tree → List Tree
  | [] => []
  | tree :: rest => tree.withTestColumns :: allWithTestColumns rest

end

def misfitsUnder (operator : Operator) : Tree → List Message
  | grid content => if operator.isTest then content.misfitMessages else []
  | _ => []

mutual

/-- The mistakes in the columns of all tests, inner ones first. -/
def misfits : Tree → List Message
  | op _ operator sibling child => sibling.misfits ++ child.misfits ++ misfitsUnder operator child
  | collection _ _ children => allMisfits children
  | grid _ | empty => []

def allMisfits : List Tree → List Message
  | [] => []
  | tree :: rest => tree.misfits ++ allMisfits rest

end

end Tree

end SheetGrammar.Sheet
