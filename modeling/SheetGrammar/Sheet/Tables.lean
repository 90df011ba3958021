import SheetGrammar.Diagnostic
import SheetGrammar.Sheet.Basic

/-!
A grid stands under `table`, `test` or `testnot`. Anywhere else below the root it is read as if `table` were written
over it; under `or` and under an assignment this is noted.
-/

namespace SheetGrammar.Sheet.Tree

/-- A grid with `table` written over it; other trees as they are. -/
def asTable : Tree → Tree
  | grid content => op ⟨"table:", content.cell.pos⟩ .table empty (grid content)
  | tree => tree

def underOperator (operator : Operator) (child : Tree) : Tree :=
  if operator.takesGrid then child else child.asTable

mutual

def withTables : Tree → Tree
  | op cell operator sibling child =>
    op cell operator sibling.withTables.asTable (underOperator operator child.withTables)
  | grid content => grid content
  | collection cell name children => collection cell name (allWithTables children)
  | empty => empty

def allWithTables : List Tree → List Tree
  | [] => []
  | tree :: rest => tree.withTables.asTable :: allWithTables rest

end

/-- The note on a grid that stands directly under an operator that takes none. -/
def implicitTable (operator : Operator) : Tree → List Message
  | grid content => if operator.takesGrid then [] else [⟨.implicitTable operator.render, some content.cell.pos⟩]
  | _ => []

mutual

/-- The notes on the tables that are left out, inner ones first. -/
def implicitTables : Tree → List Message
  | op _ operator sibling child => sibling.implicitTables ++ child.implicitTables ++ implicitTable operator child
  | collection _ _ children => allImplicitTables children
  | grid _ | empty => []

def allImplicitTables : List Tree → List Message
  | [] => []
  | tree :: rest => tree.implicitTables ++ allImplicitTables rest

end

end SheetGrammar.Sheet.Tree
