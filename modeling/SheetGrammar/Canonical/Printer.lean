import SheetGrammar.Canonical.Parser

/-!
The canonical text of a grammar: one space between the parts of a form, atoms quoted only where they must be, marks left
out.
-/

namespace SheetGrammar

namespace Canonical

def combinationWord : Combination → String
  | .sequence => "seq"
  | .alternation => "alt"

def writeRelabelling : Relabelling → List Char
  | .rename source target => "rename ".toList ++ writeAtom source.toList ++ ' ' :: writeAtom target.toList
  | .single tape => "single ".toList ++ writeAtom tape.toList

mutual

def write : Grammar → List Char
  | .epsilon _ => ['ε']
  | .null _ => ['∅']
  | .literal _ tape text => writeAtom tape.toList ++ ':' :: writeAtom text.toList
  | .embed _ symbol => '$' :: writeAtom symbol.toList
  | .combine _ how parts => '(' :: ((combinationWord how).toList ++ (writeParts parts ++ [')']))
  | .relabel _ how body => '(' :: (writeRelabelling how ++ ' ' :: (write body ++ [')']))
  | .table _ scoping entries => '(' :: ((scopingWord scoping).toList ++ (writeEntries entries ++ [')']))

def writeParts : List Grammar → List Char
  | [] => []
  | g :: rest => ' ' :: (write g ++ writeParts rest)

def writeEntries : List (String × Grammar) → List Char
  | [] => []
  | (name, g) :: rest => ' ' :: '(' :: (writeAtom name.toList ++ ' ' :: (write g ++ ')' :: writeEntries rest))

end

end Canonical

def Grammar.render (g : Grammar) : String := String.ofList (Canonical.write g)

end SheetGrammar
