import SheetGrammar.Grammar.Traversal

/-!
Default symbols. A collection that has no member `.all` gets one: the alternation of its members in their order, where
a member that is a collection stands for its own default. Tape sets are dropped on the way, since they are of the
grammar as it was.
-/

namespace SheetGrammar.Grammar

/-- What a member contributes to the default of its collection. -/
def memberEmbed (entry : String × Grammar) : Grammar :=
  embed {} (if entry.2.isNestedTable then Symbol.qualify entry.1 Symbol.allName else entry.1)

def defaultOf (pos : Option Position) (entries : List (String × Grammar)) : Grammar :=
  combine (.ofPos pos) .alternation (entries.map memberEmbed)

def withDefault (pos : Option Position) (entries : SymbolTable Grammar) : SymbolTable Grammar :=
  if entries.contains Symbol.allName then entries else entries ++ [(Symbol.allName, defaultOf pos entries)]

def assignDefault : Grammar → Grammar
  | table m .nested entries => table (.ofPos m.pos) .nested (withDefault m.pos entries)
  | g => g.withoutTapes

/-- The grammar with a default in every collection. -/
def assignDefaults : Grammar → Grammar := rewrite assignDefault

end SheetGrammar.Grammar
