import SheetGrammar.Diagnostic
import SheetGrammar.Grammar.Basic
import SheetGrammar.LiteralMap

/-!
The literals of a grammar: which texts stand on which tape, once the relabellings around them are applied. They are
read off a grammar that spells its texts out, that is one of literals, sequences and relabellings only.
-/

namespace SheetGrammar

namespace Grammar

def unsupportedLiteral (g : Grammar) : Fault := .unsupportedNode "extract-literals" g.tag

mutual

/-- The literals of a grammar that spells its texts out; the first node of any other kind is a fault. -/
def literals : Grammar → Except Fault LiteralMap
  | epsilon _ => .ok ∅
  | literal _ tape text => .ok (LiteralMap.insert ∅ tape text)
  | combine _ .sequence parts => literalsOfParts ∅ parts
  | relabel _ how body =>
    match literals body with
    | .ok found => .ok (found.rename how.source how.target)
    | .error fault => .error fault
  | null m => .error (unsupportedLiteral (null m))
  | embed m symbol => .error (unsupportedLiteral (embed m symbol))
  | combine m .alternation parts => .error (unsupportedLiteral (combine m .alternation parts))
  | table m scoping entries => .error (unsupportedLiteral (table m scoping entries))

/-- Adds the literals of one part after the other. -/
def literalsOfParts (found : LiteralMap) : List Grammar → Except Fault LiteralMap
  | [] => .ok found
  | g :: rest =>
    match literals g with
    | .ok more => literalsOfParts (found.merge more) rest
    | .error fault => .error fault

end

end Grammar

end SheetGrammar
