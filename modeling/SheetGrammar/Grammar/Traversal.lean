import SheetGrammar.Grammar.Basic

/-!
Going through a grammar. `rewrite` makes a grammar anew from the leaves up and `fold` gathers something from all of it;
every other function that goes through a whole grammar only says what happens at a node.

- `rewrite_eq`, `fold_eq`: what they do at a node, given what they do to its children.
- `inductChildren`: induction with a hypothesis for every child.
- `nodes`: all nodes of a grammar.
-/

namespace SheetGrammar.Grammar

def children : Grammar → List Grammar
  | combine _ _ parts => parts
  | relabel _ _ body => [body]
  | table _ _ entries => entries.map (·.2)
  | epsilon _ | null _ | literal _ _ _ | embed _ _ => []

def mapChildren (change : Grammar → Grammar) : Grammar → Grammar
  | epsilon m => epsilon m
  | null m => null m
  | literal m tape text => literal m tape text
  | embed m symbol => embed m symbol
  | combine m how parts => combine m how (parts.map change)
  | relabel m how body => relabel m how (change body)
  | table m scoping entries => table m scoping (entries.map fun entry => (entry.1, change entry.2))

mutual

/-- The grammar with every node changed, children before parents. -/
def rewrite (change : Grammar → Grammar) : Grammar → Grammar
  | epsilon m => change (epsilon m)
  | null m => change (null m)
  | literal m tape text => change (literal m tape text)
  | embed m symbol => change (embed m symbol)
  | combine m how parts => change (combine m how (rewriteParts change parts))
  | relabel m how body => change (relabel m how (rewrite change body))
  | table m scoping entries => change (table m scoping (rewriteEntries change entries))

def rewriteParts (change : Grammar → Grammar) : List Grammar → List Grammar
  | [] => []
  | g :: rest => rewrite change g :: rewriteParts change rest

def rewriteEntries (change : Grammar → Grammar) : List (String × Grammar) → List (String × Grammar)
  | [] => []
  | (name, g) :: rest => (name, rewrite change g) :: rewriteEntries change rest

end

mutual

/-- What is gathered at a node from the node itself and from what is gathered at its children. -/
def fold {β : Type} (own : Grammar → List β → β) : Grammar → β
  | epsilon m => own (epsilon m) []
  | null m => own (null m) []
  | literal m tape text => own (literal m tape text) []
  | embed m symbol => own (embed m symbol) []
  | combine m how parts => own (combine m how parts) (foldParts own parts)
  | relabel m how body => own (relabel m how body) [fold own body]
  | table m scoping entries => own (table m scoping entries) (foldEntries own entries)

def foldParts {β : Type} (own : Grammar → List β → β) : List Grammar → List β
  | [] => []
  | g :: rest => fold own g :: foldParts own rest

def foldEntries {β : Type} (own : Grammar → List β → β) : List (String × Grammar) → List β
  | [] => []
  | (_, g) :: rest => fold own g :: foldEntries own rest

end

/-- All nodes of a grammar, parents before children and left to right. -/
def nodes : Grammar → List Grammar := fold fun g below => g :: below.flatten

def hasNested (g : Grammar) : Bool := g.nodes.any isNestedTable

def erase : Grammar → Grammar := rewrite (withMark {})

/-! ## At a node -/

theorem rewriteParts_eq (change : Grammar → Grammar) (parts : List Grammar) :
    rewriteParts change parts = parts.map (rewrite change) := by
  induction parts with
  | nil => rfl
  | cons g rest ih => rw [rewriteParts, ih, List.map_cons]

theorem rewriteEntries_eq (change : Grammar → Grammar) (entries : List (String × Grammar)) :
    rewriteEntries change entries = entries.map fun entry => (entry.1, entry.2.rewrite change) := by
  induction entries with
  | nil => rfl
  | cons entry rest ih => rw [rewriteEntries, ih, List.map_cons]

theorem rewrite_eq (change : Grammar → Grammar) (g : Grammar) :
    g.rewrite change = change (g.mapChildren (rewrite change)) := by
  cases g with
  | combine m how parts => rw [rewrite, rewriteParts_eq, mapChildren]
  | table m scoping entries => rw [rewrite, rewriteEntries_eq, mapChildren]
  | _ => rfl

theorem foldParts_eq {β : Type} (own : Grammar → List β → β) (parts : List Grammar) :
    foldParts own parts = parts.map (fold own) := by
  induction parts with
  | nil => rfl
  | cons g rest ih => rw [foldParts, ih, List.map_cons]

theorem foldEntries_eq {β : Type} (own : Grammar → List β → β) (entries : List (String × Grammar)) :
    foldEntries own entries = (entries.map (·.2)).map (fold own) := by
  induction entries with
  | nil => rfl
  | cons entry rest ih => rw [foldEntries, ih, List.map_cons, List.map_cons]

theorem fold_eq {β : Type} (own : Grammar → List β → β) (g : Grammar) :
    g.fold own = own g (g.children.map (fold own)) := by
  cases g with
  | combine m how parts => rw [fold, foldParts_eq, children]
  | table m scoping entries => rw [fold, foldEntries_eq, children]
  | _ => rfl

theorem sizeOf_lt_of_mem_children {child g : Grammar} (h : child ∈ g.children) : sizeOf child < sizeOf g := by
  cases g with
  | combine m how parts =>
    have : sizeOf child < sizeOf parts := List.sizeOf_lt_of_mem h
    rw [combine.sizeOf_spec]
    omega
  | relabel m how body =>
    rw [List.mem_singleton.mp h, relabel.sizeOf_spec]
    omega
  | table m scoping entries =>
    obtain ⟨entry, he, rfl⟩ := List.mem_map.mp h
    have := List.sizeOf_lt_of_mem he
    have : sizeOf entry.2 < sizeOf entry := by cases entry; simp only [Prod.mk.sizeOf_spec]; omega
    rw [table.sizeOf_spec]
    omega
  | _ => cases h

/-- Induction with a hypothesis for every child. -/
@[elab_as_elim]
theorem inductChildren {motive : Grammar → Prop} (step : ∀ g, (∀ child ∈ g.children, motive child) → motive g)
    (g : Grammar) : motive g :=
  step g fun child _ => inductChildren step child
termination_by g
decreasing_by exact sizeOf_lt_of_mem_children ‹_›

/-- Induction with a case for every kind of node. -/
@[elab_as_elim, induction_eliminator]
theorem induct {motive : Grammar → Prop} (epsilon : ∀ mark, motive (.epsilon mark)) (null : ∀ mark, motive (.null mark))
    (literal : ∀ mark tape text, motive (.literal mark tape text)) (embed : ∀ mark symbol, motive (.embed mark symbol))
    (combine : ∀ mark how parts, (∀ g ∈ parts, motive g) → motive (.combine mark how parts))
    (relabel : ∀ mark how body, motive body → motive (.relabel mark how body))
    (table : ∀ mark scoping entries, (∀ entry ∈ entries, motive entry.2) → motive (.table mark scoping entries))
    (g : Grammar) : motive g := by
  refine inductChildren (fun g ih => ?_) g
  cases g with
  | epsilon mark => exact epsilon mark
  | null mark => exact null mark
  | literal mark tape text => exact literal mark tape text
  | embed mark symbol => exact embed mark symbol
  | combine mark how parts => exact combine mark how parts ih
  | relabel mark how body => exact relabel mark how body (ih body (List.mem_singleton_self body))
  | table mark scoping entries =>
    exact table mark scoping entries fun entry he => ih entry.2 (List.mem_map_of_mem he)

/-! ## Children changed -/

@[simp] theorem children_mapChildren (change : Grammar → Grammar) (g : Grammar) :
    (g.mapChildren change).children = g.children.map change := by
  cases g <;> simp [mapChildren, children]

@[simp] theorem mark_mapChildren (change : Grammar → Grammar) (g : Grammar) : (g.mapChildren change).mark = g.mark := by
  cases g <;> rfl

@[simp] theorem isNestedTable_mapChildren (change : Grammar → Grammar) (g : Grammar) :
    (g.mapChildren change).isNestedTable = g.isNestedTable := by
  rcases g with _ | _ | _ | _ | _ | _ | ⟨_, _ | _, _⟩ <;> rfl

@[simp] theorem children_withMark (new : Mark) (g : Grammar) : (g.withMark new).children = g.children := by
  cases g <;> rfl

@[simp] theorem isNestedTable_withMark (new : Mark) (g : Grammar) :
    (g.withMark new).isNestedTable = g.isNestedTable := by
  rcases g with _ | _ | _ | _ | _ | _ | ⟨_, _ | _, _⟩ <;> rfl

theorem mapChildren_withMark (change : Grammar → Grammar) (new : Mark) (g : Grammar) :
    (g.withMark new).mapChildren change = (g.mapChildren change).withMark new := by
  cases g <;> rfl

theorem mapChildren_mapChildren (change change' : Grammar → Grammar) (g : Grammar) :
    (g.mapChildren change).mapChildren change' = g.mapChildren fun child => change' (change child) := by
  cases g <;> simp [mapChildren]

@[simp] theorem mapChildren_id (g : Grammar) : g.mapChildren id = g := by
  cases g <;> simp [mapChildren]

theorem mapChildren_congr {change change' : Grammar → Grammar} {g : Grammar}
    (h : ∀ child ∈ g.children, change child = change' child) : g.mapChildren change = g.mapChildren change' := by
  cases g with
  | combine m how parts => exact congrArg (combine m how) (List.map_congr_left h)
  | relabel m how body => exact congrArg (relabel m how) (h body (List.mem_singleton_self body))
  | table m scoping entries =>
    rw [mapChildren, mapChildren, List.map_congr_left fun entry he => by rw [h entry.2 (List.mem_map_of_mem he)]]
  | _ => rfl

end SheetGrammar.Grammar
