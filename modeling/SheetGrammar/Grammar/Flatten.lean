import SheetGrammar.Diagnostic
import SheetGrammar.Grammar.Traversal

/-!
Flattening: nested collections become one table of qualified names. A symbol `root` of a collection `Verbs` is listed as
`Verbs.root`, and every embed is rewritten to the qualified name that it refers to where it stands. It refers to what is
found first from the innermost enclosing collection outwards; the name of a collection refers to its default.

Of definitions with the same qualified key the first is kept. An embed that refers to nothing becomes null.
-/

namespace SheetGrammar

/-- A name seen from outside the collections in `scope`, outermost first. -/
def qualifyIn (scope : List String) (name : String) : String :=
  Symbol.qualify (String.intercalate "." scope) name

/-- A definition that is no collection, with its qualified name and the collections around it. -/
structure Definition where
  name : String
  scope : List String
  body : Grammar

namespace Definition

def key (d : Definition) : String := Symbol.key d.name

/-- The definitions with a key that no earlier one has, and the others. `seen` are the keys of those before. -/
def partition (seen : List String) : List Definition → List Definition × List Definition
  | [] => ([], [])
  | d :: rest =>
    if d.key ∈ seen then
      let (kept, repeated) := partition seen rest
      (kept, d :: repeated)
    else
      let (kept, repeated) := partition (d.key :: seen) rest
      (d :: kept, repeated)

end Definition

namespace Grammar

mutual

/-- The definitions of a member of a collection: itself, or those of the collection that it is. -/
def definitionsOf (scope : List String) (name : String) : Grammar → List Definition
  | table _ .nested members => definitions (scope ++ [name]) members
  | g => [⟨qualifyIn scope name, scope, g⟩]

/-- All definitions of a collection, each collection's own where it stands. -/
def definitions (scope : List String) : List (String × Grammar) → List Definition
  | [] => []
  | (name, g) :: rest => definitionsOf scope name g ++ definitions scope rest

end

mutual

/-- The qualified keys of the collections in a member of a collection. -/
def collectionKeysOf (scope : List String) (name : String) : Grammar → List String
  | table _ .nested members => Symbol.key (qualifyIn scope name) :: collectionKeys (scope ++ [name]) members
  | _ => []

def collectionKeys (scope : List String) : List (String × Grammar) → List String
  | [] => []
  | (name, g) :: rest => collectionKeysOf scope name g ++ collectionKeys scope rest

end

end Grammar

/-- What embeds can refer to: qualified names by their keys, and the keys of collections. -/
structure Namespace where
  names : List (String × String)
  collections : List String

namespace Namespace

def ofDefinitions (kept : List Definition) (collections : List String) : Namespace :=
  ⟨kept.map fun d => (d.key, d.name), collections⟩

/-- What a qualified key refers to. A collection's default is looked up under the collection's key as it is. -/
def atKey? (space : Namespace) (key : String) : Option String :=
  match space.names.lookup key with
  | some name => some name
  | none => if key ∈ space.collections then space.names.lookup (Symbol.qualify key Symbol.allName) else none

/-- What a name refers to inside the given collections, innermost first. -/
def find? (space : Namespace) (name : String) : List String → Option String
  | [] => space.atKey? (Symbol.key name)
  | inner :: outer =>
    match space.atKey? (Symbol.key (qualifyIn (inner :: outer).reverse name)) with
    | some found => some found
    | none => space.find? name outer

end Namespace

def Definition.refer (space : Namespace) (d : Definition) (symbol : String) : Option String :=
  space.find? symbol d.scope.reverse

namespace Grammar

def resolveEmbed (refer : String → Option String) : Grammar → Grammar
  | embed m symbol =>
    match refer symbol with
    | some name => embed (.ofPos m.pos) name
    | none => null (.ofPos m.pos)
  | g => g.withoutTapes

/-- The grammar with every embed rewritten to what it refers to. Tape sets are dropped. -/
def resolve (refer : String → Option String) : Grammar → Grammar := rewrite (resolveEmbed refer)

/-- A message for every embed that refers to nothing, in the order of the text. -/
def unresolved (refer : String → Option String) : Grammar → List Message :=
  fold fun
    | embed m symbol, _ => if (refer symbol).isSome then [] else [⟨.unresolvedSymbol symbol, m.pos⟩]
    | _, below => below.flatten

/-- The kept definitions of a collection, and the ones that a kept one has the key of. -/
def flattening (entries : List (String × Grammar)) : List Definition × List Definition :=
  Definition.partition [] (definitions [] entries)

def namespaceOf (entries : List (String × Grammar)) : Namespace :=
  .ofDefinitions (flattening entries).1 (collectionKeys [] entries)

/-- The grammar with qualified names, and what went wrong. A table of qualified names stays as it is; a grammar on its
own has nothing to refer to. -/
def qualifyNames : Grammar → Grammar × List Message
  | table m .nested entries =>
    let (kept, repeated) := flattening entries
    let space := namespaceOf entries
    (table (.ofPos m.pos) .flat (kept.map fun d => (d.name, d.body.resolve (d.refer space))),
      repeated.map (fun d => ⟨.ambiguousSymbol d.name, d.body.pos⟩) ++
        kept.flatMap fun d => d.body.unresolved (d.refer space))
  | table m .flat entries => (table (.ofPos m.pos) .flat entries, [])
  | g => (g.resolve fun _ => none, g.unresolved fun _ => none)

end Grammar

end SheetGrammar
