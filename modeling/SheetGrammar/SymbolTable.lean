import SheetGrammar.Symbol

/-!
Tables from symbol names to values. Look-up goes by the key of a name and iteration by the order in which keys were
first put in; each entry keeps its name as it was last spelled.
-/

namespace SheetGrammar

/-- The entries in the order of their first insertion. -/
abbrev SymbolTable (α : Type) := List (String × α)

namespace SymbolTable

variable {α : Type}

def keys (table : SymbolTable α) : List String := table.map fun entry => Symbol.key entry.1

def names (table : SymbolTable α) : List String := table.map (·.1)

def WellFormed (table : SymbolTable α) : Prop := table.keys.Nodup

def entryOfKey? (table : SymbolTable α) (key : String) : Option (String × α) :=
  table.find? fun entry => Symbol.key entry.1 == key

/-- The entry that a name finds, with its own spelling. -/
def entry? (table : SymbolTable α) (name : String) : Option (String × α) :=
  table.entryOfKey? (Symbol.key name)

def get? (table : SymbolTable α) (name : String) : Option α := (table.entry? name).map (·.2)

def contains (table : SymbolTable α) (name : String) : Bool := (table.entry? name).isSome

/-- Puts an entry in the place of the one with the given key, or at the end. -/
def put (key name : String) (value : α) : SymbolTable α → SymbolTable α
  | [] => [(name, value)]
  | entry :: rest => if Symbol.key entry.1 = key then (name, value) :: rest else entry :: put key name value rest

/-- Defines a name. An entry of the same key is replaced where it stands. -/
def insert (table : SymbolTable α) (name : String) (value : α) : SymbolTable α :=
  put (Symbol.key name) name value table

/-- Defines a name, and gives back the entry that had to make room for it. -/
def exchange (table : SymbolTable α) (name : String) (value : α) : Option (String × α) × SymbolTable α :=
  (table.entry? name, table.insert name value)

/-- The table of a list of definitions, the later ones replacing the earlier. -/
def ofList (definitions : List (String × α)) : SymbolTable α :=
  definitions.foldl (fun table entry => table.insert entry.1 entry.2) []

end SymbolTable

end SheetGrammar
