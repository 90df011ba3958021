import SheetGrammar.Text.Lowercase

/-!
Symbol names. Two spellings name the same symbol when they have the same key, their lower-case form. A name written
inside a scope is qualified by a separating dot, which is always put in: the default `.all` of a scope `Verbs` is
`Verbs..all`, so that no member named `all` can be taken for it.
-/

namespace SheetGrammar.Symbol

/-- What two spellings of one symbol have in common. -/
def key (name : String) : String := Text.lowercase name

/-- The symbol that stands for everything in a collection. -/
def allName : String := ".all"

/-- The name as seen from outside `scope`; the outermost scope is the empty text. -/
def qualify (scope name : String) : String :=
  if scope.isEmpty then name else scope ++ "." ++ name

end SheetGrammar.Symbol
