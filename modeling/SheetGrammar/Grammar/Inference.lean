import SheetGrammar.Diagnostic
import SheetGrammar.Grammar.Traversal

/-!
Tape inference: which tapes each node of a flat grammar writes on.

    tapes ε = tapes ∅          = nothing
    tapes (t:x)                = t
    tapes of a combination     = all tapes of its parts
    tapes ($n)                 = the tapes of what n stands for
    tapes of a relabelling     = those of its body, the source renamed to the target
    tapes of a table           = all tapes of its entries

First the tapes of every symbol are found. The walk follows the embeds of a symbol depth first and keeps the symbols
that it is in the middle of; meeting one of those again closes a cycle. Every symbol on a cycle is reported once, with
the path, and stands for nothing. A symbol is settled once all that it embeds is.

Then every definition is annotated from the leaves up. An embed of a symbol that is not settled becomes null, and a
rename of a tape that its body does not have gives way to the body. Collections have no place in a flat grammar: the
first one that is met is a fault.

What is settled stays settled when the same state is used for another grammar.
-/

namespace SheetGrammar

/-! ## Tapes of a grammar whose symbols are settled -/

namespace Grammar

/-- The tapes of a grammar, given those of the symbols that it embeds. -/
def tapesWith (tapesOf : String → TapeSet) : Grammar → TapeSet :=
  fold fun
    | literal _ tape _, _ => SortedSet.singleton tape
    | embed _ symbol, _ => tapesOf symbol
    | relabel _ how _, below => (TapeSet.unionAll below).rename how.source how.target
    | _, below => TapeSet.unionAll below

/-- The keys of the symbols that a grammar embeds, in the order of the text, those inside collections left out. -/
def embeds : Grammar → List String :=
  fold fun
    | embed _ symbol, _ => [Symbol.key symbol]
    | table _ .nested _, _ => []
    | _, below => below.flatten

end Grammar

/-! ## Settling the symbols of a table -/

structure Inference where
  /-- The tapes of the settled symbols, the latest first. -/
  settled : List (String × TapeSet) := []
  /-- The symbols that the walk is in the middle of, in the order of its visit. -/
  inProgress : List String := []
  /-- The symbols found to embed themselves. -/
  recursive : List String := []

namespace Inference

def stage : String := "calculate-tapes"

def tapesOfKey? (known : Inference) (key : String) : Option TapeSet := known.settled.lookup key

def tapes? (known : Inference) (symbol : String) : Option TapeSet := known.tapesOfKey? (Symbol.key symbol)

def tapesOf (known : Inference) (symbol : String) : TapeSet := (known.tapes? symbol).getD ∅

def enter (known : Inference) (key : String) : Inference :=
  if key ∈ known.inProgress then known else { known with inProgress := known.inProgress ++ [key] }

/-- Settles a symbol whose definition is `g`; the latest symbol in progress is done. -/
def settle (known : Inference) (key : String) (g : Grammar) : Inference :=
  { known with
    settled := (key, if key ∈ known.recursive then ∅ else g.tapesWith known.tapesOf) :: known.settled
    inProgress := known.inProgress.dropLast }

end Inference

def SymbolTable.spelling {α : Type} (symbols : SymbolTable α) (key : String) : String :=
  match symbols.entry? key with
  | some entry => entry.1
  | none => key

namespace Inference

/-- The path through symbols in progress back to the first of them. -/
def cyclePath (symbols : SymbolTable Grammar) (members : List String) : String :=
  String.intercalate " -> " ((members ++ members.take 1).map symbols.spelling)

def recursionMessage (symbols : SymbolTable Grammar) (cycle key : String) : Message :=
  ⟨.recursiveEmbed (symbols.spelling key) cycle, (symbols.get? key).bind Grammar.pos⟩

/-- Closes the cycle from `key`, which is in progress, to the latest symbol in progress. The symbols on it that were not
known to be recursive are reported. -/
def closeCycle (symbols : SymbolTable Grammar) (key : String) (known : Inference) : Inference × List Message :=
  let members := known.inProgress.dropWhile (· ≠ key)
  match members.filter (· ∉ known.recursive) with
  | [] => (known, [])
  | fresh =>
    ({ known with recursive := fresh.reverse ++ known.recursive },
      fresh.map (recursionMessage symbols (cyclePath symbols members)))

end Inference

/-- A symbol that is being visited, with the keys that it embeds and that are still to be visited. -/
structure Visit where
  key : String
  pending : List String

structure Walk where
  known : Inference
  visits : List Visit
  messages : List Message := []

namespace Walk

def visit (symbols : SymbolTable Grammar) (walk : Walk) (key : String) : Walk :=
  { walk with
    known := walk.known.enter key
    visits := ⟨key, ((symbols.get? key).map Grammar.embeds).getD []⟩ :: walk.visits }

inductive Step where
  | next (walk : Walk)
  | done
  | fault (fault : Fault)

/-- Looks at the next embed of the innermost visit, or settles its symbol if there is none. -/
def step (symbols : SymbolTable Grammar) (walk : Walk) : Step :=
  match walk.visits with
  | [] => .done
  | ⟨key, []⟩ :: outer =>
    match symbols.get? key with
    | some g =>
      if g.hasNested then .fault (.unflattenedCollection Inference.stage)
      else .next { walk with known := walk.known.settle key g, visits := outer }
    | none => .next { walk with known := walk.known.settle key (.null {}), visits := outer }
  | ⟨key, target :: pending⟩ :: outer =>
    let rest : Walk := { walk with visits := ⟨key, pending⟩ :: outer }
    if (walk.known.tapesOfKey? target).isSome then .next rest
    else if target ∈ walk.known.inProgress then
      let (known, messages) := walk.known.closeCycle symbols target
      .next { rest with known := known, messages := walk.messages ++ messages }
    else if symbols.contains target then .next (rest.visit symbols target)
    else .next rest

/-- Takes at most so many steps; tells the fault, if one was met. -/
def run (symbols : SymbolTable Grammar) : Nat → Walk → Walk × Option Fault
  | 0, walk => (walk, none)
  | n + 1, walk =>
    match walk.step symbols with
    | .next next => run symbols n next
    | .done => (walk, none)
    | .fault fault => (walk, some fault)

/-- More steps than a walk can take: each symbol is visited once at most, and each of its embeds looked at once. -/
def bound (symbols : SymbolTable Grammar) : Nat :=
  symbols.foldr (fun entry steps => entry.2.embeds.length + 1 + steps) 0

end Walk

structure Inferred (α : Type) where
  known : Inference
  messages : List Message
  result : Except Fault α

namespace Inference

def settleSymbol (symbols : SymbolTable Grammar) (limit : Nat) (known : Inference) (name : String) : Inferred Unit :=
  let key := Symbol.key name
  if (known.tapesOfKey? key).isSome || !symbols.contains key then ⟨known, [], .ok ()⟩
  else
    let start : Walk := { known := known, visits := [] }
    let (walk, fault) := (start.visit symbols key).run symbols limit
    ⟨walk.known, walk.messages, match fault with | some fault => .error fault | none => .ok ()⟩

/-- Settles the given symbols one after the other, up to a fault. -/
def settleSymbols (symbols : SymbolTable Grammar) (limit : Nat) : List String → Inference → Inferred Unit
  | [], known => ⟨known, [], .ok ()⟩
  | name :: rest, known =>
    let first := settleSymbol symbols limit known name
    match first.result with
    | .error fault => ⟨first.known, first.messages, .error fault⟩
    | .ok () =>
      let others := settleSymbols symbols limit rest first.known
      ⟨others.known, first.messages ++ others.messages, others.result⟩

def settleTable (symbols : SymbolTable Grammar) (known : Inference) : Inferred Unit :=
  settleSymbols symbols (Walk.bound symbols) symbols.names known

end Inference

/-! ## Annotation -/

namespace Grammar

def unionOf (gs : List Grammar) : TapeSet := TapeSet.unionAll (gs.map knownTapes)

/-- A rename of a tape that its body does not have. -/
def isIdleRename : Relabelling → Grammar → Bool
  | .rename source _, body => source ∉ body.knownTapes
  | .single _, _ => false

def annotateNode (known : Inference) : Grammar → Grammar
  | literal m tape text => literal ⟨m.pos, some (SortedSet.singleton tape)⟩ tape text
  | embed m symbol =>
    match known.tapes? symbol with
    | some tapes => embed ⟨m.pos, some tapes⟩ symbol
    | none => null ⟨m.pos, some ∅⟩
  | relabel m how body =>
    if isIdleRename how body then body
    else relabel ⟨m.pos, some (body.knownTapes.rename how.source how.target)⟩ how body
  | g => g.withTapes (unionOf g.children)

/-- The grammar with the tapes of every node, repaired where it has to be. -/
def annotate (known : Inference) : Grammar → Grammar := rewrite (annotateNode known)

/-- What annotation meets on its way. -/
inductive Incident where
  /-- A node that had to be repaired. -/
  | repair (message : Message)
  | collection

def nodeIncidents (known : Inference) : Grammar → List Incident
  | embed m symbol =>
    match known.tapes? symbol with
    | some _ => []
    | none => [.repair ⟨.unresolvedSymbol symbol, m.pos⟩]
  | relabel m how body =>
    if isIdleRename how (annotate known body) then [.repair ⟨.renameMissingTape how.source how.target, m.pos⟩] else []
  | table _ .nested _ => [.collection]
  | _ => []

/-- What annotation meets, children before parents and left to right. -/
def incidents (known : Inference) : Grammar → List Incident :=
  fold fun g below => below.flatten ++ g.nodeIncidents known

namespace Incident

/-- The messages up to the first collection. -/
def reported : List Incident → List Message
  | .repair message :: rest => message :: reported rest
  | .collection :: _ => []
  | [] => []

/-- A fault if a collection was met, otherwise what was made. -/
def outcome {α : Type} (met : List Incident) (made : α) : Except Fault α :=
  match met with
  | .repair _ :: rest => outcome rest made
  | .collection :: _ => .error (.unflattenedCollection Inference.stage)
  | [] => .ok made

end Incident

end Grammar

namespace Inference

def isRecursive (known : Inference) (name : String) : Bool := Symbol.key name ∈ known.recursive

/-- An entry of the annotated table. Recursive symbols are null. -/
def annotateEntry (known : Inference) (entry : String × Grammar) : String × Grammar :=
  (entry.1, if known.isRecursive entry.1 then .null ⟨entry.2.pos, some ∅⟩ else entry.2.annotate known)

def entryIncidents (known : Inference) (entry : String × Grammar) : List Grammar.Incident :=
  if known.isRecursive entry.1 then [] else entry.2.incidents known

/-- Annotates a grammar and all nodes in it. Embeds refer to the entries of a flat table; a grammar of another kind
has only what is settled already. -/
def annotate (known : Inference) : Grammar → Inferred Grammar
  | .table m .flat symbols =>
    let settled := settleTable symbols known
    match settled.result with
    | .error fault => ⟨settled.known, settled.messages, .error fault⟩
    | .ok () =>
      let entries := symbols.map settled.known.annotateEntry
      let met := symbols.flatMap settled.known.entryIncidents
      ⟨settled.known, settled.messages ++ Grammar.Incident.reported met,
        Grammar.Incident.outcome met (.table ⟨m.pos, some (Grammar.unionOf (entries.map (·.2)))⟩ .flat entries)⟩
  | g =>
    ⟨known, Grammar.Incident.reported (g.incidents known),
      Grammar.Incident.outcome (g.incidents known) (g.annotate known)⟩

end Inference

def Grammar.inferTapes (g : Grammar) : Except Fault Grammar × List Message :=
  let inferred := Inference.annotate {} g
  (inferred.result, inferred.messages)

end SheetGrammar
