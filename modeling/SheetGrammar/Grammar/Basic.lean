import SheetGrammar.Cell
import SheetGrammar.SymbolTable
import SheetGrammar.TapeSet

/-!
Grammars: what a workbook means. A grammar relates texts on named tapes. Every node has a mark, the position of the
cell it comes from and, once it is known, the set of tapes that it writes on.

Two nodes hold symbol tables. A nested table is a namespace, whose members may be namespaces again; a flat table holds
the symbols of the whole workbook under their qualified names.
-/

namespace SheetGrammar

structure Mark where
  pos : Option Position := none
  tapes : Option TapeSet := none
deriving DecidableEq

def Mark.ofPos (pos : Option Position) : Mark := ⟨pos, none⟩

inductive Combination where
  | sequence
  | alternation
deriving DecidableEq, Repr

/-- How a node names the tapes of its body anew. -/
inductive Relabelling where
  /-- One tape takes another's name. -/
  | rename (source target : String)
  /-- The anonymous tape gets a name. -/
  | single (tape : String)
deriving DecidableEq, Repr

def Relabelling.source : Relabelling → String
  | rename source _ => source
  | single _ => anonymousTape

def Relabelling.target : Relabelling → String
  | rename _ target => target
  | single tape => tape

/-- What the names in a symbol table are: names within a scope, or qualified names. -/
inductive Scoping where
  | nested
  | flat
deriving DecidableEq, Repr

inductive Grammar where
  /-- The empty text on every tape. -/
  | epsilon (mark : Mark)
  /-- No text at all. -/
  | null (mark : Mark)
  /-- One text on one tape. -/
  | literal (mark : Mark) (tape text : String)
  /-- Whatever a symbol stands for. -/
  | embed (mark : Mark) (symbol : String)
  | combine (mark : Mark) (how : Combination) (parts : List Grammar)
  | relabel (mark : Mark) (how : Relabelling) (body : Grammar)
  | table (mark : Mark) (scoping : Scoping) (entries : List (String × Grammar))

namespace Grammar

instance : Inhabited Grammar := ⟨epsilon {}⟩

def mark : Grammar → Mark
  | epsilon mark | null mark | literal mark _ _ | embed mark _ | combine mark _ _ | relabel mark _ _
  | table mark _ _ => mark

def withMark (new : Mark) : Grammar → Grammar
  | epsilon _ => epsilon new
  | null _ => null new
  | literal _ tape text => literal new tape text
  | embed _ symbol => embed new symbol
  | combine _ how parts => combine new how parts
  | relabel _ how body => relabel new how body
  | table _ scoping entries => table new scoping entries

def pos (g : Grammar) : Option Position := g.mark.pos

def tapes (g : Grammar) : Option TapeSet := g.mark.tapes

/-- The tapes known of a node, none if nothing is known. -/
def knownTapes (g : Grammar) : TapeSet := g.tapes.getD ∅

def withTapes (g : Grammar) (tapes : TapeSet) : Grammar := g.withMark ⟨g.pos, some tapes⟩

def withoutTapes (g : Grammar) : Grammar := g.withMark (.ofPos g.pos)

def isNestedTable : Grammar → Bool
  | table _ .nested _ => true
  | _ => false

def tag : Grammar → String
  | epsilon _ => "epsilon"
  | null _ => "null"
  | literal _ _ _ => "literal"
  | embed _ _ => "embed"
  | combine _ .sequence _ => "seq"
  | combine _ .alternation _ => "alt"
  | relabel _ (.rename _ _) _ => "rename"
  | relabel _ (.single _) _ => "single"
  | table _ .nested _ => "coll"
  | table _ .flat _ => "qual"

mutual

/-- Equality of grammars with their marks, in which the order of a symbol table does not count: each entry of one must
be found in the other, with the same spelling and an equal grammar, and there must be as many. -/
def same : Grammar → Grammar → Bool
  | epsilon m, epsilon n => m = n
  | null m, null n => m = n
  | literal m tape text, literal n tape' text' => m = n && tape = tape' && text = text'
  | embed m symbol, embed n symbol' => m = n && symbol = symbol'
  | combine m how parts, combine n how' parts' => m = n && how = how' && sameParts parts parts'
  | relabel m how body, relabel n how' body' => m = n && how = how' && same body body'
  | table m scoping entries, table n scoping' entries' =>
    m = n && scoping = scoping' && entries.length == entries'.length && sameEntries entries entries'
  | _, _ => false

def sameParts : List Grammar → List Grammar → Bool
  | [], [] => true
  | g :: gs, h :: hs => same g h && sameParts gs hs
  | _, _ => false

def sameEntries : List (String × Grammar) → SymbolTable Grammar → Bool
  | [], _ => true
  | (name, g) :: rest, other =>
    (match other.entry? name with
      | some (name', h) => name = name' && same g h
      | none => false) && sameEntries rest other

end

end Grammar

end SheetGrammar
