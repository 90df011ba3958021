import SheetGrammar.Proofs.PlacedReports

/-!
Flattening loses and duplicates nothing, whatever the collections and names are. Every definition of a tree of
collections is in the table or is reported as ambiguous, in the order of the text, and every embed in the table is of a
symbol of the table or is lost and reported.

- `Grammar.listing`: the definitions of a collection, found from the inside out.
- `Definition.partition_nil`: what is kept is the first definition with each key, and what is given up is the rest.
- `Grammar.Relinked`: a definition that is unchanged but for its embeds.
- `Grammar.qualifyNames_accounts`: the whole account, which is a `Flattened`: the first definition with each key, what
  it becomes and what is reported of it.
-/

namespace SheetGrammar

/-! ## The definitions of a collection -/

/-- A definition that is no collection, with its own name and those of the collections around it, outermost first. -/
structure Leaf where
  scope : List String
  name : String
  body : Grammar

namespace Leaf

/-- The leaf as seen from outside the collections `outer`. -/
def inside (outer : List String) (leaf : Leaf) : Leaf := { leaf with scope := outer ++ leaf.scope }

def definition (leaf : Leaf) : Definition := ⟨qualifyIn leaf.scope leaf.name, leaf.scope, leaf.body⟩

theorem inside_inside (outer inner : List String) (leaf : Leaf) :
    (leaf.inside inner).inside outer = leaf.inside (outer ++ inner) := by
  simp [inside]

end Leaf

namespace Grammar

mutual

/-- The leaves of a member of a collection: itself, or those of the collection that it is. -/
def leavesOf (name : String) : Grammar → List Leaf
  | table _ .nested members => (leaves members).map (·.inside [name])
  | g => [⟨[], name, g⟩]

def leaves : List (String × Grammar) → List Leaf
  | [] => []
  | (name, g) :: rest => leavesOf name g ++ leaves rest

end

def listing (members : List (String × Grammar)) : List Definition := (leaves members).map Leaf.definition

@[simp] theorem leaves_eq (members : List (String × Grammar)) :
    leaves members = members.flatMap fun entry => leavesOf entry.1 entry.2 := by
  induction members with
  | nil => rfl
  | cons entry rest ih => rw [leaves, ih, List.flatMap_cons]

/-- Definitions are listed with the collections around them at hand, and each is a leaf seen from outside of these. -/
theorem definitionsOf_eq_leavesOf (g : Grammar) (scope : List String) (name : String) :
    definitionsOf scope name g = (leavesOf name g).map fun leaf => (leaf.inside scope).definition := by
  induction g generalizing scope name with
  | table m scoping members ih =>
    cases scoping with
    | nested =>
      rw [definitionsOf, leavesOf, definitions_eq, leaves_eq, List.map_map, List.map_flatMap]
      refine List.flatMap_congr fun entry he => ?_
      rw [ih entry he]
      exact List.map_congr_left fun leaf _ => by rw [Function.comp_apply, Leaf.inside_inside]
    | flat => simp [definitionsOf, leavesOf, Leaf.definition, Leaf.inside]
  | _ => simp [definitionsOf, leavesOf, Leaf.definition, Leaf.inside]

theorem definitions_eq_listing (members : List (String × Grammar)) : definitions [] members = listing members := by
  rw [definitions_eq, listing, leaves_eq, List.map_flatMap]
  exact List.flatMap_congr fun entry _ => definitionsOf_eq_leavesOf entry.2 [] entry.1

end Grammar

/-! ## First definitions -/

namespace Definition

def isFirst (ds : List Definition) (place : Definition × Nat) : Bool := decide (place.1.key ∉ (ds.take place.2).map key)

def firsts (ds : List Definition) : List Definition := (ds.zipIdx.filter (isFirst ds)).map (·.1)

def others (ds : List Definition) : List Definition := (ds.zipIdx.filter fun place => !isFirst ds place).map (·.1)

/-- What is kept and what is given up of the definitions after some others. -/
theorem partition_eq (before ds : List Definition) {seen : List String} (hseen : ∀ k, k ∈ seen ↔ k ∈ before.map key) :
    partition seen ds = (((ds.zipIdx before.length).filter (isFirst (before ++ ds))).map (·.1),
      ((ds.zipIdx before.length).filter fun place => !isFirst (before ++ ds) place).map (·.1)) := by
  induction ds generalizing before seen with
  | nil => rfl
  | cons d rest ih =>
    have hfirst : isFirst (before ++ d :: rest) (d, before.length) = decide (d.key ∉ seen) := by
      rw [isFirst, List.take_left, decide_eq_decide, hseen]
    have hlist : before ++ d :: rest = (before ++ [d]) ++ rest := by simp
    have hlength : before.length + 1 = (before ++ [d]).length := by simp
    rw [partition, List.zipIdx_cons, List.filter_cons, List.filter_cons, hfirst]
    by_cases hmem : d.key ∈ seen
    · rw [if_pos hmem, ih (before ++ [d]), hlist, hlength]
      · simp [hmem]
      · intro k
        rw [hseen, List.map_append, List.mem_append, or_iff_left_of_imp]
        rintro hk
        rw [List.mem_singleton.mp hk]
        exact (hseen _).mp hmem
    · rw [if_neg hmem, ih (before ++ [d]), hlist, hlength]
      · simp [hmem]
      · intro k
        rw [List.mem_cons, hseen, List.map_append, List.mem_append, or_comm]
        simp

theorem partition_nil (ds : List Definition) : partition [] ds = (firsts ds, others ds) :=
  partition_eq [] ds (by simp)

end Definition

namespace Grammar

/-! ## Relinked definitions -/

/-- A definition, what it becomes, and what is reported of it, in the order of the text. Every embed becomes one of a
name of the table, or is lost and reported; all else is as it was. -/
inductive Relinked (names : List String) : Grammar → Grammar → List Message → Prop
  | epsilon (m : Mark) : Relinked names (.epsilon m) (.epsilon (.ofPos m.pos)) []
  | null (m : Mark) : Relinked names (.null m) (.null (.ofPos m.pos)) []
  | literal (m : Mark) (tape text : String) :
      Relinked names (.literal m tape text) (.literal (.ofPos m.pos) tape text) []
  | found (m : Mark) (symbol : String) {name : String} : name ∈ names →
      Relinked names (.embed m symbol) (.embed (.ofPos m.pos) name) []
  | lost (m : Mark) (symbol : String) :
      Relinked names (.embed m symbol) (.null (.ofPos m.pos)) [⟨.unresolvedSymbol symbol, m.pos⟩]
  | combine (m : Mark) (how : Combination) {parts : List (Grammar × Grammar × List Message)} :
      (∀ part ∈ parts, Relinked names part.1 part.2.1 part.2.2) →
      Relinked names (.combine m how (parts.map (·.1))) (.combine (.ofPos m.pos) how (parts.map (·.2.1)))
        (parts.flatMap (·.2.2))
  | relabel (m : Mark) (how : Relabelling) {body made : Grammar} {report : List Message} :
      Relinked names body made report →
      Relinked names (.relabel m how body) (.relabel (.ofPos m.pos) how made) report
  | table (m : Mark) (scoping : Scoping) {entries : List (String × Grammar × Grammar × List Message)} :
      (∀ entry ∈ entries, Relinked names entry.2.1 entry.2.2.1 entry.2.2.2) →
      Relinked names (.table m scoping (entries.map fun entry => (entry.1, entry.2.1)))
        (.table (.ofPos m.pos) scoping (entries.map fun entry => (entry.1, entry.2.2.1))) (entries.flatMap (·.2.2.2))

variable {names : List String} {g made : Grammar} {report : List Message} {refer : String → Option String}

/-- A rewriting that refers to names of the table relinks. -/
theorem relinked_resolve (hrefer : ∀ symbol name, refer symbol = some name → name ∈ names) :
    Relinked names g (g.resolve refer) (g.unresolved refer) := by
  induction g with
  | epsilon m => exact .epsilon m
  | null m => exact .null m
  | literal m tape text => exact .literal m tape text
  | embed m symbol =>
    rw [resolve_embed, unresolved_embed]
    cases hfound : refer symbol with
    | some name => exact .found m symbol (hrefer symbol name hfound)
    | none => exact .lost m symbol
  | combine m how parts ih =>
    have hparts : ∀ part ∈ parts.map fun part => (part, part.resolve refer, part.unresolved refer),
        Relinked names part.1 part.2.1 part.2.2 := by
      intro _ hmem
      obtain ⟨part, hpart, rfl⟩ := List.mem_map.mp hmem
      exact ih part hpart
    rw [resolve_combine, unresolved_combine]
    simpa [List.flatMap_map, Function.comp_def] using Relinked.combine m how hparts
  | relabel m how body ih =>
    rw [resolve_relabel, unresolved_relabel]
    exact .relabel m how ih
  | table m scoping entries ih =>
    have hentries :
      ∀ entry ∈ entries.map fun entry => (entry.1, entry.2, entry.2.resolve refer, entry.2.unresolved refer),
        Relinked names entry.2.1 entry.2.2.1 entry.2.2.2 := by
      intro _ hmem
      obtain ⟨entry, hentry, rfl⟩ := List.mem_map.mp hmem
      exact ih entry hentry
    rw [resolve_table, unresolved_table]
    simpa [List.flatMap_map, Function.comp_def] using Relinked.table m scoping hentries

def isEmbed : Grammar → Bool
  | embed _ _ => true
  | _ => false

theorem countP_isEmbed_eq (h : g.isEmbed = false) :
    g.nodes.countP isEmbed = (g.children.map fun child => child.nodes.countP isEmbed).sum := by
  rw [nodes_eq, List.countP_cons, h, List.countP_flatMap]
  rfl

/-- As many embeds go as are reported. -/
theorem Relinked.countP_isEmbed (h : Relinked names g made report) :
    g.nodes.countP isEmbed = made.nodes.countP isEmbed + report.length := by
  induction h with
  | combine m how _ ih =>
    rw [countP_isEmbed_eq rfl, countP_isEmbed_eq rfl, List.length_flatMap, children, children, List.map_map,
      List.map_map, ← List.sum_map_add]
    exact congrArg List.sum (List.map_congr_left ih)
  | relabel m how _ ih =>
    rw [countP_isEmbed_eq rfl, countP_isEmbed_eq rfl]
    exact ih
  | table m scoping _ ih =>
    rw [countP_isEmbed_eq rfl, countP_isEmbed_eq rfl, List.length_flatMap, children, children, List.map_map,
      List.map_map, List.map_map, List.map_map, ← List.sum_map_add]
    exact congrArg List.sum (List.map_congr_left ih)
  | _ => rfl

/-! ## The account -/

structure Flattened (m : Mark) (members : List (String × Grammar)) (run : Grammar × List Message)
    (parts : List (Definition × Grammar × List Message)) : Prop where
  firsts : parts.map (·.1) = Definition.firsts (listing members)
  table : run.1 = .table (.ofPos m.pos) .flat (parts.map fun part => (part.1.name, part.2.1))
  relinked : ∀ part ∈ parts, Relinked (parts.map (·.1.name)) part.1.body part.2.1 part.2.2
  messages : run.2 = (Definition.others (listing members)).map (fun d => ⟨.ambiguousSymbol d.name, d.body.pos⟩) ++
    parts.flatMap (·.2.2)
  /-- As many embeds go as are reported. -/
  lost : (parts.flatMap (·.1.body.nodes)).countP isEmbed = run.1.nodes.countP isEmbed + (parts.flatMap (·.2.2)).length

theorem flattening_listing (members : List (String × Grammar)) :
    (flattening members).1 = Definition.firsts (listing members) ∧
      (flattening members).2 = Definition.others (listing members) := by
  rw [flattening, definitions_eq_listing, Definition.partition_nil]
  exact ⟨rfl, rfl⟩

/-- What an embed refers to is the name of a first definition. -/
theorem mem_names_of_refer {members : List (String × Grammar)} {d : Definition} {symbol name : String}
    (h : d.refer (namespaceOf members) symbol = some name) : name ∈ (flattening members).1.map Definition.name :=
  List.mem_map.mpr (Namespace.exists_of_find? h)

/-- Of definitions that are relinked as a table, as many embeds go as are reported. -/
theorem countP_isEmbed_table (m : Mark) {parts : List (Definition × Grammar × List Message)}
    (h : ∀ part ∈ parts, Relinked names part.1.body part.2.1 part.2.2) :
    (parts.flatMap (·.1.body.nodes)).countP isEmbed =
      (Grammar.table (.ofPos m.pos) .flat (parts.map fun part => (part.1.name, part.2.1))).nodes.countP isEmbed +
        (parts.flatMap (·.2.2)).length := by
  rw [List.countP_flatMap, countP_isEmbed_eq rfl, List.length_flatMap, children, List.map_map, List.map_map,
    ← List.sum_map_add]
  exact congrArg List.sum (List.map_congr_left fun part hpart => (h part hpart).countP_isEmbed)

/-- Flattening loses and duplicates nothing. -/
theorem qualifyNames_accounts (m : Mark) (members : List (String × Grammar)) :
    ∃ parts, Flattened m members (table m .nested members).qualifyNames parts := by
  let part (d : Definition) : Definition × Grammar × List Message :=
    (d, d.body.resolve (d.refer (namespaceOf members)), d.body.unresolved (d.refer (namespaceOf members)))
  obtain ⟨hkept, hrepeated⟩ := flattening_listing members
  have htable : (table m .nested members).qualifyNames.1 =
      .table (.ofPos m.pos) .flat (((flattening members).1.map part).map fun part => (part.1.name, part.2.1)) := by
    rw [List.map_map]
    rfl
  have hrelinked : ∀ p ∈ (flattening members).1.map part,
      Relinked (((flattening members).1.map part).map (·.1.name)) p.1.body p.2.1 p.2.2 := by
    rw [List.map_map]
    intro p hp
    obtain ⟨d, -, rfl⟩ := List.mem_map.mp hp
    exact relinked_resolve fun symbol name hrefer => mem_names_of_refer hrefer
  refine ⟨(flattening members).1.map part, ?_, htable, hrelinked, ?_, ?_⟩
  · rw [List.map_map, ← hkept]
    exact List.map_id _
  · rw [List.flatMap_map, ← hrepeated]
    rfl
  · rw [htable]
    exact countP_isEmbed_table m hrelinked

/-- A collection's member and a member with the collection's name before its own have one qualified name. -/
example :
    let verbs : Grammar := .table {} .nested [("Root", .literal {} "text" "run"), ("form", .embed {} "verbs.ROOT")]
    let g : Grammar :=
      .table {} .nested [("Verbs", verbs), ("verbs.root", .embed {} "stem"), ("stem", .embed {} "VERBS.stem")]
    g.qualifyNames.1.render = "(qual (Verbs.Root text:run) (Verbs.form $Verbs.Root) (stem ∅))" ∧
    g.qualifyNames.2 = [⟨.ambiguousSymbol "verbs.root", none⟩, ⟨.unresolvedSymbol "VERBS.stem", none⟩] := by
  decide +kernel

end Grammar

end SheetGrammar
