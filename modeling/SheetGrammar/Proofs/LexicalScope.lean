import Mathlib.Data.List.Induction
import SheetGrammar.Canonical.Printer
import SheetGrammar.Proofs.CollectionWalk

/-!
Flattening is lexical scoping. Names are looked up in two lists of qualified names, by the keys of whole texts; nothing
in that goes from one collection to the next. It comes to the same as a walk through the tree: an embed refers to what
its path leads to from the innermost of the collections around it from which the path leads to something.

- `Refers`, `RefersToNothing`: what a path refers to inside some collections.
- `Scoped.find?_dotted`: looking outwards through the lists is looking outwards through the collections.
- `Placed`: a definition of the tree, with what it is rewritten to and what is reported of it.
- `qualifyNames_scoped`: every definition of the tree comes out under its qualified name, with its embeds rewritten
  accordingly.
-/

namespace SheetGrammar

open SheetGrammar.Symbol

namespace Grammar

variable {g body c : Grammar} {path other scope target full : List String} {name : String} {d : Definition}

/-! ## Looking outwards -/

/-- What a path refers to inside the collections `scope`, outermost first: what it stands for from the innermost of
them from which it stands for something. -/
def Refers (root : Grammar) (scope path full : List String) : Prop :=
  ∃ outer collection target, outer <+: scope ∧ root.walk? outer = some (outer, collection) ∧
    collection.target? path = some target ∧ full = outer ++ target ∧
    ∀ inner collection', inner <+: scope → root.walk? inner = some (inner, collection') → outer.length < inner.length →
      collection'.target? path = none

def RefersToNothing (root : Grammar) (scope path : List String) : Prop :=
  ∀ outer collection, outer <+: scope → root.walk? outer = some (outer, collection) → collection.target? path = none

/-- What a path stands for from where it is, it refers to there. -/
theorem refers_here (hwalk : g.walk? scope = some (scope, c)) (htarget : c.target? path = some target) :
    g.Refers scope path (scope ++ target) := by
  refine ⟨scope, c, target, List.prefix_rfl, hwalk, htarget, rfl, ?_⟩
  intro inner _ hinner _ hlonger
  exact absurd hinner.length_le (Nat.not_le.mpr hlonger)

theorem refersToNothing_nil (htarget : g.target? path = none) : g.RefersToNothing [] path := by
  intro outer collection houter hcollection
  obtain rfl := List.prefix_nil.mp houter
  cases hcollection
  exact htarget

/-- A path that stands for nothing in a collection refers there to what it refers to around the collection. -/
theorem Refers.inside (h : g.Refers scope path full) (hwalk : g.walk? (scope ++ [name]) = some (scope ++ [name], c))
    (htarget : c.target? path = none) : g.Refers (scope ++ [name]) path full := by
  obtain ⟨outer, collection, target, houter, hcollection, hfound, hfull, hinnermost⟩ := h
  refine ⟨outer, collection, target, houter.trans (List.prefix_append _ _), hcollection, hfound, hfull, ?_⟩
  intro inner collection' hinner hcollection' hlonger
  rcases List.prefix_concat_iff.mp hinner with rfl | hinner
  · cases hwalk.symm.trans hcollection'
    exact htarget
  · exact hinnermost inner collection' hinner hcollection' hlonger

theorem RefersToNothing.inside (h : g.RefersToNothing scope path)
    (hwalk : g.walk? (scope ++ [name]) = some (scope ++ [name], c)) (htarget : c.target? path = none) :
    g.RefersToNothing (scope ++ [name]) path := by
  intro outer collection houter hcollection
  rcases List.prefix_concat_iff.mp houter with rfl | houter
  · cases hwalk.symm.trans hcollection
    exact htarget
  · exact h outer collection houter hcollection

/-- The lists are looked through from the innermost collection outwards. -/
theorem find?_concat (space : Namespace) (text : String) :
    space.find? text (scope ++ [name]).reverse =
      (space.atKey? (key (qualifyIn (scope ++ [name]) text))).or (space.find? text scope.reverse) := by
  rw [List.reverse_concat, Namespace.find?, List.reverse_cons, List.reverse_reverse]
  cases space.atKey? (key (qualifyIn (scope ++ [name]) text)) <;> rfl

theorem Scoped.atKey?_inside (hg : g.Scoped) (hpath : IsPath path) (hplain : ∀ name ∈ scope, Plain name)
    (hwalk : g.walk? scope = some (scope, c)) :
    (namespaceOf g.inner).atKey? (key (qualifyIn scope (dotted path))) =
      (c.target? path).map fun target => dotted (scope ++ target) := by
  rw [qualifyIn_dotted hplain hpath.ne_nil, hg.atKey?_dotted (hpath.append hplain), target?_append hwalk,
    Option.map_map]
  rfl

/-- What is found for a path is what it refers to. -/
theorem Scoped.find?_dotted (hg : g.Scoped) (hpath : IsPath path) (hplain : ∀ name ∈ scope, Plain name)
    (hwalk : g.walk? scope = some (scope, c)) :
    (∃ full, g.Refers scope path full ∧ (namespaceOf g.inner).find? (dotted path) scope.reverse = some (dotted full)) ∨
      (g.RefersToNothing scope path ∧ (namespaceOf g.inner).find? (dotted path) scope.reverse = none) := by
  -- by induction on the collections, the innermost last: it is looked into first
  induction scope using List.reverseRecOn generalizing c with
  | nil =>
    rw [List.reverse_nil, Namespace.find?, hg.atKey?_dotted hpath]
    cases htarget : g.target? path with
    | none => exact .inr ⟨refersToNothing_nil htarget, rfl⟩
    | some target => exact .inl ⟨target, refers_here rfl htarget, rfl⟩
  | append_singleton scope name ih =>
    rw [find?_concat, hg.atKey?_inside hpath hplain hwalk]
    cases htarget : c.target? path with
    | some target => exact .inl ⟨scope ++ [name] ++ target, refers_here hwalk htarget, rfl⟩
    | none =>
      obtain ⟨around, haround, -⟩ := walk?_of_append hwalk
      rcases ih (fun name' hmem => hplain name' (List.mem_append_left _ hmem)) haround with ⟨full, hrefers, hfind⟩
        | ⟨hnothing, hfind⟩
      · exact .inl ⟨full, hrefers.inside hwalk htarget, hfind⟩
      · exact .inr ⟨hnothing.inside hwalk htarget, hfind⟩

/-! ## Rewritten definitions -/

/-- A definition inside the collections `scope` of a tree, with what it is rewritten to and what is reported of it.
Every embed of a path becomes one of what the path refers to, or is lost and reported if it refers to nothing. -/
inductive Rewrites (root : Grammar) (scope : List String) : Grammar → Grammar → List Message → Prop
  | epsilon (m : Mark) : Rewrites root scope (.epsilon m) (.epsilon (.ofPos m.pos)) []
  | null (m : Mark) : Rewrites root scope (.null m) (.null (.ofPos m.pos)) []
  | literal (m : Mark) (tape text : String) :
      Rewrites root scope (.literal m tape text) (.literal (.ofPos m.pos) tape text) []
  | found (m : Mark) {path full : List String} : IsPath path → root.Refers scope path full →
      Rewrites root scope (.embed m (dotted path)) (.embed (.ofPos m.pos) (dotted full)) []
  | lost (m : Mark) {path : List String} : IsPath path → root.RefersToNothing scope path →
      Rewrites root scope (.embed m (dotted path)) (.null (.ofPos m.pos)) [⟨.unresolvedSymbol (dotted path), m.pos⟩]
  | foundText (m : Mark) {text : String} (full : String) : (∀ path, IsPath path → text ≠ dotted path) →
      Rewrites root scope (.embed m text) (.embed (.ofPos m.pos) full) []
  | lostText (m : Mark) {text : String} : (∀ path, IsPath path → text ≠ dotted path) →
      Rewrites root scope (.embed m text) (.null (.ofPos m.pos)) [⟨.unresolvedSymbol text, m.pos⟩]
  | combine (m : Mark) (how : Combination) {parts : List (Grammar × Grammar × List Message)} :
      (∀ part ∈ parts, Rewrites root scope part.1 part.2.1 part.2.2) →
      Rewrites root scope (.combine m how (parts.map (·.1))) (.combine (.ofPos m.pos) how (parts.map (·.2.1)))
        (parts.flatMap (·.2.2))
  | relabel (m : Mark) (how : Relabelling) {body made : Grammar} {report : List Message} :
      Rewrites root scope body made report →
      Rewrites root scope (.relabel m how body) (.relabel (.ofPos m.pos) how made) report
  | table (m : Mark) (scoping : Scoping) {entries : List (String × Grammar × Grammar × List Message)} :
      (∀ entry ∈ entries, Rewrites root scope entry.2.1 entry.2.2.1 entry.2.2.2) →
      Rewrites root scope (.table m scoping (entries.map fun entry => (entry.1, entry.2.1)))
        (.table (.ofPos m.pos) scoping (entries.map fun entry => (entry.1, entry.2.2.1))) (entries.flatMap (·.2.2.2))

variable {root : Grammar} {refer : String → Option String}

/-- A rewriting that finds what paths refer to rewrites accordingly. -/
theorem rewrites_resolve (hrefer : ∀ path, IsPath path →
    (∃ full, root.Refers scope path full ∧ refer (dotted path) = some (dotted full)) ∨
      (root.RefersToNothing scope path ∧ refer (dotted path) = none)) :
    root.Rewrites scope g (g.resolve refer) (g.unresolved refer) := by
  induction g with
  | epsilon m => exact .epsilon m
  | null m => exact .null m
  | literal m tape text => exact .literal m tape text
  | embed m symbol =>
    rw [resolve_embed, unresolved_embed]
    by_cases hpath : ∃ path, IsPath path ∧ symbol = dotted path
    · obtain ⟨path, hpath, rfl⟩ := hpath
      rcases hrefer path hpath with ⟨full, hrefers, hfound⟩ | ⟨hnothing, hlost⟩
      · rw [hfound]
        exact .found m hpath hrefers
      · rw [hlost]
        exact .lost m hpath hnothing
    · have htext : ∀ path, IsPath path → symbol ≠ dotted path := fun path h he => hpath ⟨path, h, he⟩
      cases refer symbol with
      | some full => exact .foundText m full htext
      | none => exact .lostText m htext
  | combine m how parts ih =>
    have hparts : ∀ part ∈ parts.map fun part => (part, part.resolve refer, part.unresolved refer),
        root.Rewrites scope part.1 part.2.1 part.2.2 := by
      intro _ hmem
      obtain ⟨part, hpart, rfl⟩ := List.mem_map.mp hmem
      exact ih part hpart
    rw [resolve_combine, unresolved_combine]
    simpa [List.flatMap_map, Function.comp_def] using Rewrites.combine m how hparts
  | relabel m how body ih =>
    rw [resolve_relabel, unresolved_relabel]
    exact .relabel m how ih
  | table m scoping entries ih =>
    have hentries :
      ∀ entry ∈ entries.map fun entry => (entry.1, entry.2, entry.2.resolve refer, entry.2.unresolved refer),
        root.Rewrites scope entry.2.1 entry.2.2.1 entry.2.2.2 := by
      intro _ hmem
      obtain ⟨entry, hentry, rfl⟩ := List.mem_map.mp hmem
      exact ih entry hentry
    rw [resolve_table, unresolved_table]
    simpa [List.flatMap_map, Function.comp_def] using Rewrites.table m scoping hentries

/-- Nothing but a lost embed is reported. -/
theorem Rewrites.unresolved {made : Grammar} {report : List Message} (h : root.Rewrites scope g made report) :
    ∀ message ∈ report, ∃ symbol, message.finding = .unresolvedSymbol symbol := by
  induction h with
  | epsilon m => simp
  | null m => simp
  | literal m tape text => simp
  | found m hpath hrefers => simp
  | lost m hpath hnothing => simp
  | foundText m full htext => simp
  | lostText m htext => simp
  | combine m how hparts ih =>
    intro message hmem
    obtain ⟨part, hpart, hmem⟩ := List.mem_flatMap.mp hmem
    exact ih part hpart message hmem
  | relabel m how hbody ih => exact ih
  | table m scoping hentries ih =>
    intro message hmem
    obtain ⟨entry, hentry, hmem⟩ := List.mem_flatMap.mp hmem
    exact ih entry hentry message hmem

/-- The definitions of the lists stand where they say, in collections. -/
theorem Scoped.exists_name (hg : g.Scoped) (hd : d ∈ definitions [] g.inner) :
    ∃ name, d.name = dotted (d.scope ++ [name]) ∧ g.walk? (d.scope ++ [name]) = some (d.scope ++ [name], d.body) ∧
      d.body.isNestedTable = false := by
  obtain ⟨path, body, hne, hwalk, hbody, rfl⟩ := (hg.mem_definitions_iff (by simp)).mp hd
  have hpath : path.dropLast ++ [path.getLast hne] = path := List.dropLast_append_getLast hne
  refine ⟨path.getLast hne, ?_, ?_, hbody⟩
  · exact congrArg dotted hpath.symm
  · change g.walk? (path.dropLast ++ [path.getLast hne]) = some (path.dropLast ++ [path.getLast hne], body)
    rw [hpath, hwalk]

/-- No two places have one qualified name. -/
theorem Scoped.path_unique (hg : g.Scoped) (hne : path ≠ []) (hne' : other ≠ [])
    (hpath : g.walk? path = some (path, body)) (hother : g.walk? other = some (other, c))
    (hname : dotted other = dotted path) : path = other := by
  have hplace := hg.walk?_of_key (hg.isPath_of_walk? hpath hne) hne' hother (congrArg key hname)
  rw [hpath] at hplace
  exact (Prod.mk.inj (Option.some.inj hplace)).1

theorem Scoped.rewrites_of_mem (hg : g.Scoped) (hd : d ∈ definitions [] g.inner) :
    g.Rewrites d.scope d.body (d.body.resolve (d.refer (namespaceOf g.inner)))
      (d.body.unresolved (d.refer (namespaceOf g.inner))) := by
  obtain ⟨name, -, hwalk, -⟩ := hg.exists_name hd
  obtain ⟨around, haround, hmember⟩ := walk?_of_append hwalk
  -- what has a member is a collection, so the names around the definition are plain
  have hnested : around.isNestedTable = true := by
    by_contra hflat
    cases (walk?_of_not_nested (Bool.eq_false_of_not_eq_true hflat) hmember).1
  exact rewrites_resolve fun path hpath => hg.find?_dotted hpath (hg.plain_of_walk? haround hnested) haround

structure Placed where
  scope : List String
  name : String
  source : Grammar
  made : Grammar
  report : List Message

def Placed.title (p : Placed) : String := dotted (p.scope ++ [p.name])

/-- Flattening is lexical scoping. The table lists the definitions of the tree by their qualified names, each with its
embeds rewritten by what their paths refer to in the collections around the definition. No name is ambiguous, and the
messages are those of the embeds that refer to nothing. -/
theorem qualifyNames_scoped (m : Mark) (members : List (String × Grammar)) (tree : (table m .nested members).Scoped) :
    ∃ placed : List Placed,
      (table m .nested members).qualifyNames =
        (table (.ofPos m.pos) .flat (placed.map fun p => (p.title, p.made)), placed.flatMap (·.report)) ∧
      SymbolTable.WellFormed (placed.map fun p => (p.title, p.made)) ∧
      (∀ scope name body, (∃ p ∈ placed, p.scope = scope ∧ p.name = name ∧ p.source = body) ↔
        (table m .nested members).walk? (scope ++ [name]) = some (scope ++ [name], body) ∧ body.isNestedTable = false) ∧
      (∀ p ∈ placed, (table m .nested members).Rewrites p.scope p.source p.made p.report) ∧
      ∀ message ∈ placed.flatMap (·.report), ∀ symbol, message.finding ≠ .ambiguousSymbol symbol := by
  have hnames := fun d (hd : d ∈ definitions [] members) => tree.exists_name hd
  choose! name htitle hwalk hbody using hnames
  let place (d : Definition) : Placed :=
    ⟨d.scope, name d, d.body, d.body.resolve (d.refer (namespaceOf members)),
      d.body.unresolved (d.refer (namespaceOf members))⟩
  have htitles : ((definitions [] members).map place).map (fun p => (p.title, p.made)) =
      (definitions [] members).map fun d => (d.name, d.body.resolve (d.refer (namespaceOf members))) := by
    rw [List.map_map]
    exact List.map_congr_left fun d hd => Prod.ext (htitle d hd).symm rfl
  have hrewrites : ∀ p ∈ (definitions [] members).map place,
      (table m .nested members).Rewrites p.scope p.source p.made p.report := by
    intro p hp
    obtain ⟨d, hd, rfl⟩ := List.mem_map.mp hp
    exact tree.rewrites_of_mem hd
  refine ⟨(definitions [] members).map place, ?_, ?_, ?_, hrewrites, ?_⟩
  · rw [htitles, qualifyNames, show flattening members = _ from tree.flattening_eq, List.flatMap_map]
    rfl
  · rw [htitles, SymbolTable.WellFormed, SymbolTable.keys, List.map_map]
    exact tree.nodup_definitions (by simp)
  · intro scope symbol body
    constructor
    · rintro ⟨p, hp, rfl, rfl, rfl⟩
      obtain ⟨d, hd, rfl⟩ := List.mem_map.mp hp
      exact ⟨hwalk d hd, hbody d hd⟩
    · rintro ⟨hplace, hflat⟩
      have hd : ⟨dotted (scope ++ [symbol]), scope, body⟩ ∈ definitions [] members :=
        (tree.mem_definitions_iff (by simp)).mpr
          ⟨scope ++ [symbol], body, by simp, hplace, hflat, by simp [Definition.at]⟩
      have hpath := tree.path_unique (by simp) (by simp) (hwalk _ hd) hplace (htitle _ hd)
      have hsymbol := List.append_inj_right' hpath rfl
      exact ⟨_, List.mem_map_of_mem hd, rfl, (List.cons.inj hsymbol).1, rfl⟩
  · intro message hmem symbol hfinding
    obtain ⟨p, hp, hmem⟩ := List.mem_flatMap.mp hmem
    obtain ⟨symbol', hfinding'⟩ := (hrewrites p hp).unresolved message hmem
    rw [hfinding'] at hfinding
    cases hfinding

/-- With a collection inside that has the name of one outside but no default, so that `nouns` is looked for further
out, and with an embed of the one inside that is lost. -/
theorem qualifyNames_scoped_shadowed :
    let nouns : Grammar := .table {} .nested [(".all", .epsilon {}), ("root", .embed {} "NOUNS")]
    let verbs : Grammar := .table {} .nested
      [("Nouns", .table {} .nested [("root", .literal {} "text" "run")]),
        ("form", .combine {} .sequence
          [.embed {} "nouns.Root", .embed {} "nouns", .embed {} "Stem", .embed {} "verbs.nouns"])]
    let members := [("Verbs", verbs), ("Nouns", nouns), ("stem", .embed {} "nouns")]
    (table {} .nested members).Scoped ∧ ∃ placed : List Placed,
      (table {} .nested members).qualifyNames =
        (table (.ofPos none) .flat (placed.map fun p => (p.title, p.made)), placed.flatMap (·.report)) ∧
      SymbolTable.WellFormed (placed.map fun p => (p.title, p.made)) ∧
      (∀ scope name body, (∃ p ∈ placed, p.scope = scope ∧ p.name = name ∧ p.source = body) ↔
        (table {} .nested members).walk? (scope ++ [name]) = some (scope ++ [name], body) ∧
          body.isNestedTable = false) ∧
      (∀ p ∈ placed, (table {} .nested members).Rewrites p.scope p.source p.made p.report) ∧
      ∀ message ∈ placed.flatMap (·.report), ∀ symbol, message.finding ≠ .ambiguousSymbol symbol := by
  intro nouns verbs members
  have hnouns : nouns.Scoped := .collection {} (by decide +kernel) (by decide +kernel) (by
    intro entry he
    exact .definition ((by decide +kernel : ∀ entry ∈ nouns.inner, entry.2.hasNested = false) entry he))
  have hverbs : verbs.Scoped := .collection {} (by decide +kernel) (by decide +kernel) (by
    refine List.forall_mem_cons.mpr ⟨?_, List.forall_mem_singleton.mpr (.definition (by decide +kernel))⟩
    exact .collection {} (by decide +kernel) (by decide +kernel)
      (List.forall_mem_singleton.mpr (.definition (by decide +kernel))))
  have hmembers : ∀ entry ∈ members, entry.2.Scoped := by
    refine List.forall_mem_cons.mpr ⟨hverbs, List.forall_mem_cons.mpr ⟨hnouns, ?_⟩⟩
    exact List.forall_mem_singleton.mpr (.definition (by decide +kernel))
  have tree : (table {} .nested members).Scoped := .collection {} (by decide +kernel) (by decide +kernel) hmembers
  exact ⟨tree, qualifyNames_scoped {} members tree⟩

example :
    let verbs : Grammar := .table {} .nested
      [("Nouns", .table {} .nested [("root", .literal {} "text" "run")]),
        ("form", .combine {} .sequence [.embed {} "nouns.Root", .embed {} "nouns", .embed {} "verbs.nouns"])]
    let g : Grammar := .table {} .nested [("Verbs", verbs), ("Nouns", .table {} .nested [(".all", .epsilon {})])]
    g.qualifyNames.1.render =
      "(qual (Verbs.Nouns.root text:run) (Verbs.form (seq $Verbs.Nouns.root $Nouns..all ∅)) (Nouns..all ε))" ∧
    g.qualifyNames.2 = [⟨.unresolvedSymbol "verbs.nouns", none⟩] := by
  decide +kernel

end Grammar

end SheetGrammar
