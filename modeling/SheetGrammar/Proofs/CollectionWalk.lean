import Mathlib.Data.List.Nodup
import SheetGrammar.Proofs.DottedPaths
import SheetGrammar.Proofs.Totality

/-!
Walks through a tree of collections, from collection to member by the keys of names, and the lists of qualified names
that stand for the tree. The lists are made in one pass and know nothing of collections inside collections but the dots
in their texts. Where names can be told apart by their paths they hold the tree all the same.

- `Grammar.walk?`: the walk, member by member.
- `Scoped.mem_definitions_iff`, `Scoped.mem_collectionKeys_iff`: what is listed is what walks lead to.
- `Scoped.nodup_definitions`: no two definitions have one key, so nothing is left out.
- `Scoped.atKey?_dotted`: the lists hold under the key of a path what the walk finds at its end.
-/

namespace SheetGrammar

open SheetGrammar.Symbol

namespace Grammar

/-! ## Walks through collections -/

def inner : Grammar → SymbolTable Grammar
  | .table _ .nested members => members
  | _ => []

/-- Where a path of names leads, from collection to member, with the names as the collections spell them. -/
def walk? (g : Grammar) : List String → Option (List String × Grammar)
  | [] => some ([], g)
  | name :: rest =>
    (g.inner.entry? name).bind fun entry => (entry.2.walk? rest).map fun place => (entry.1 :: place.1, place.2)

/-- The definition that a path leads to, if that is no collection, by the path as it is spelled. -/
def definition? (g : Grammar) (path : List String) : Option (List String) :=
  (g.walk? path).bind fun place => if place.2.isNestedTable then none else some place.1

/-- What a path stands for: the definition that it leads to, or the default of the collection that it leads to. -/
def target? (g : Grammar) (path : List String) : Option (List String) :=
  (g.walk? path).bind fun place =>
    if place.2.isNestedTable then (place.2.definition? [allName]).map (place.1 ++ ·) else some place.1

variable {g h body : Grammar} {path other spelled : List String} {name : String}

theorem inner_of_not_nested (hg : g.isNestedTable = false) : g.inner = [] := by
  unfold inner
  split
  · cases hg
  · rfl

theorem exists_eq_of_nested (hg : g.isNestedTable = true) : ∃ m, g = .table m .nested g.inner := by
  unfold isNestedTable at hg
  split at hg
  · next m members => exact ⟨m, rfl⟩
  · cases hg

/-- Names of one key lead to one place. -/
theorem walk?_congr (hkeys : path.map key = other.map key) : g.walk? path = g.walk? other := by
  induction path generalizing g other with
  | nil =>
    rw [List.map_nil, eq_comm, List.map_eq_nil_iff] at hkeys
    rw [hkeys]
  | cons name rest ih =>
    cases other with
    | nil => cases hkeys
    | cons name' rest' =>
      rw [List.map_cons, List.map_cons, List.cons.injEq] at hkeys
      rw [walk?, walk?, SymbolTable.entry?, SymbolTable.entry?, hkeys.1]
      simp only [ih hkeys.2]

theorem walk?_cons_eq_some : g.walk? (name :: path) = some (spelled, body) ↔
    ∃ entry rest, g.inner.entry? name = some entry ∧ entry.2.walk? path = some (rest, body) ∧
      spelled = entry.1 :: rest := by
  rw [walk?]
  constructor
  · intro hwalk
    obtain ⟨entry, hentry, hrest⟩ := Option.bind_eq_some_iff.mp hwalk
    obtain ⟨⟨rest, g'⟩, hplace, hspelled⟩ := Option.map_eq_some_iff.mp hrest
    cases hspelled
    exact ⟨entry, rest, hentry, hplace, rfl⟩
  · rintro ⟨entry, rest, hentry, hplace, rfl⟩
    rw [hentry, Option.bind_some, hplace]
    rfl

/-- The names are spelled with the keys that they were asked by. -/
theorem key_of_walk? (hwalk : g.walk? path = some (spelled, body)) : spelled.map key = path.map key := by
  induction path generalizing g spelled with
  | nil =>
    cases hwalk
    rfl
  | cons name rest ih =>
    obtain ⟨entry, rest', hentry, hplace, rfl⟩ := walk?_cons_eq_some.mp hwalk
    rw [List.map_cons, List.map_cons, ih hplace, (SymbolTable.mem_of_entry? hentry).2]

/-- The path as it is spelled leads to the same place. -/
theorem walk?_spelled (hwalk : g.walk? path = some (spelled, body)) : g.walk? spelled = some (spelled, body) :=
  (walk?_congr (key_of_walk? hwalk)).trans hwalk

theorem walk?_append : g.walk? (path ++ other) =
    (g.walk? path).bind fun place => (place.2.walk? other).map fun place' => (place.1 ++ place'.1, place'.2) := by
  induction path generalizing g with
  | nil => simp [walk?]
  | cons name rest ih =>
    rw [List.cons_append, walk?, walk?]
    cases g.inner.entry? name with
    | none => rfl
    | some entry =>
      rw [Option.bind_some, Option.bind_some, ih]
      cases entry.2.walk? rest with
      | none => rfl
      | some place => simp [Function.comp_def]

/-- A place on the way to a place. -/
theorem walk?_of_append (hwalk : g.walk? (path ++ other) = some (path ++ other, body)) :
    ∃ around, g.walk? path = some (path, around) ∧ around.walk? other = some (other, body) := by
  rw [walk?_append] at hwalk
  obtain ⟨⟨front, around⟩, hfront, hrest⟩ := Option.bind_eq_some_iff.mp hwalk
  obtain ⟨⟨back, body'⟩, hback, hplace⟩ := Option.map_eq_some_iff.mp hrest
  obtain ⟨hspelled, rfl⟩ := Prod.mk.inj hplace
  have hlength : front.length = path.length := by simpa using congrArg List.length (key_of_walk? hfront)
  obtain ⟨rfl, rfl⟩ := List.append_inj hspelled hlength
  exact ⟨around, hfront, hback⟩

/-- What a path stands for from a place on the way is what it stands for from the start. -/
theorem definition?_append (hwalk : g.walk? path = some (spelled, body)) :
    g.definition? (path ++ other) = (body.definition? other).map (spelled ++ ·) := by
  rw [definition?, definition?, walk?_append, hwalk, Option.bind_some]
  cases body.walk? other with
  | none => rfl
  | some place => cases hplace : place.2.isNestedTable <;> simp [hplace]

theorem target?_append (hwalk : g.walk? path = some (spelled, body)) :
    g.target? (path ++ other) = (body.target? other).map (spelled ++ ·) := by
  rw [target?, target?, walk?_append, hwalk, Option.bind_some]
  cases body.walk? other with
  | none => rfl
  | some place => cases hplace : place.2.isNestedTable <;> simp [hplace, Function.comp_def]

/-! ## Trees of collections -/

inductive Scoped : Grammar → Prop
  | definition {g : Grammar} : g.hasNested = false → Scoped g
  | collection (m : Mark) {members : List (String × Grammar)} : SymbolTable.WellFormed members →
      (∀ entry ∈ members, Plain entry.1 ∨ entry.1 = allName ∧ entry.2.isNestedTable = false) →
      (∀ entry ∈ members, Scoped entry.2) → Scoped (.table m .nested members)

theorem isNestedTable_of_hasNested (hg : g.hasNested = false) : g.isNestedTable = false :=
  hasNested_eq_false_iff.mp hg g (self_mem_nodes g)

/-- What is known of the members of a collection. -/
theorem Scoped.inner (hg : g.Scoped) : g.inner.WellFormed ∧
    ∀ entry ∈ g.inner, (Plain entry.1 ∨ entry.1 = allName ∧ entry.2.isNestedTable = false) ∧ entry.2.Scoped := by
  cases hg with
  | definition hflat =>
    rw [inner_of_not_nested (isNestedTable_of_hasNested hflat)]
    exact ⟨List.nodup_nil, by simp⟩
  | collection m hkeys hnames hmembers => exact ⟨hkeys, fun entry he => ⟨hnames entry he, hmembers entry he⟩⟩

/-- A path as it is spelled goes by members. -/
theorem Scoped.walk?_cons_iff (hg : g.Scoped) : g.walk? (name :: path) = some (name :: path, body) ↔
    ∃ h, (name, h) ∈ g.inner ∧ h.walk? path = some (path, body) := by
  rw [walk?_cons_eq_some]
  constructor
  · rintro ⟨⟨name', h⟩, rest, hentry, hwalk, hspelled⟩
    obtain ⟨rfl, rfl⟩ := List.cons.inj hspelled
    exact ⟨h, (SymbolTable.mem_of_entry? hentry).1, hwalk⟩
  · rintro ⟨h, hmem, hwalk⟩
    exact ⟨(name, h), path, SymbolTable.entry?_of_mem hg.inner.1 hmem rfl, hwalk, rfl⟩

/-- Nothing but a collection can be walked through. -/
theorem walk?_of_not_nested (hg : g.isNestedTable = false) (hwalk : g.walk? path = some (spelled, body)) :
    path = [] ∧ spelled = [] ∧ body = g := by
  cases path with
  | nil =>
    cases hwalk
    exact ⟨rfl, rfl, rfl⟩
  | cons name rest =>
    obtain ⟨entry, rest', hentry, -⟩ := walk?_cons_eq_some.mp hwalk
    rw [inner_of_not_nested hg] at hentry
    cases hentry

/-- The names on the way to a collection are plain. -/
theorem Scoped.plain_of_walk? (hg : g.Scoped) (hwalk : g.walk? path = some (spelled, body))
    (hbody : body.isNestedTable = true) : ∀ name ∈ spelled, Plain name := by
  induction path generalizing g spelled with
  | nil =>
    cases hwalk
    simp
  | cons name rest ih =>
    obtain ⟨entry, rest', hentry, hplace, rfl⟩ := walk?_cons_eq_some.mp hwalk
    obtain ⟨hname, hscoped⟩ := hg.inner.2 entry (SymbolTable.mem_of_entry? hentry).1
    refine List.forall_mem_cons.mpr ⟨?_, ih hscoped hplace⟩
    rcases hname with hplain | ⟨-, hflat⟩
    · exact hplain
    · obtain ⟨-, -, rfl⟩ := walk?_of_not_nested hflat hplace
      rw [hflat] at hbody
      cases hbody

/-- The names on the way to any place make a path. -/
theorem Scoped.isPath_of_walk? (hg : g.Scoped) (hwalk : g.walk? path = some (spelled, body)) (hne : spelled ≠ []) :
    IsPath spelled := by
  induction path generalizing g spelled with
  | nil =>
    cases hwalk
    exact absurd rfl hne
  | cons name rest ih =>
    obtain ⟨entry, rest', hentry, hplace, rfl⟩ := walk?_cons_eq_some.mp hwalk
    obtain ⟨hname, hscoped⟩ := hg.inner.2 entry (SymbolTable.mem_of_entry? hentry).1
    rcases hname with hplain | ⟨hdefault, hflat⟩
    · cases rest' with
      | nil => exact .symbol hplain
      | cons next rest' => exact .inside hplain (ih hscoped hplace (List.cons_ne_nil _ _))
    · obtain ⟨-, rfl, -⟩ := walk?_of_not_nested hflat hplace
      rw [hdefault]
      exact .default

end Grammar

/-! ## The lists of names -/

def Definition.at (path : List String) (body : Grammar) : Definition := ⟨dotted path, path.dropLast, body⟩

namespace Grammar

variable {g body : Grammar} {scope path : List String} {name : String} {entries : List (String × Grammar)}
    {d : Definition}

theorem definitionsOf_of_nested (hg : g.isNestedTable = true) :
    definitionsOf scope name g = definitions (scope ++ [name]) g.inner := by
  obtain ⟨m, hg⟩ := exists_eq_of_nested hg
  rw [hg]
  rfl

theorem definitionsOf_leaf (hg : g.isNestedTable = false) (scope : List String) (name : String) :
    definitionsOf scope name g = [⟨qualifyIn scope name, scope, g⟩] := by
  unfold definitionsOf
  split
  · cases hg
  · rfl

theorem definitionsOf_of_not_nested (hg : g.isNestedTable = false) (hscope : ∀ name ∈ scope, Plain name) :
    definitionsOf scope name g = [.at (scope ++ [name]) g] := by
  rw [definitionsOf_leaf hg, qualifyIn_of_ne (ne_unnamed_of_plain hscope), Definition.at, List.dropLast_concat]

theorem Scoped.plain_of_mem (hg : g.Scoped) {h : Grammar} (hmem : (name, h) ∈ g.inner) (hh : h.isNestedTable = true) :
    Plain name := by
  rcases (hg.inner.2 (name, h) hmem).1 with hplain | ⟨-, hflat⟩
  · exact hplain
  · rw [hflat] at hh
    cases hh

theorem plain_concat (hscope : ∀ name ∈ scope, Plain name) (hname : Plain name) :
    ∀ name' ∈ scope ++ [name], Plain name' := by
  intro name' hmem
  rcases List.mem_append.mp hmem with hmem | hmem
  · exact hscope name' hmem
  · rw [List.mem_singleton.mp hmem]
    exact hname

/-- The places in a grammar are its members and the places in them. -/
theorem Scoped.exists_place_iff (hg : g.Scoped) (P : List String → Grammar → Prop) :
    (∃ path body, path ≠ [] ∧ g.walk? path = some (path, body) ∧ P path body) ↔
      ∃ name h, (name, h) ∈ g.inner ∧
        (P [name] h ∨ ∃ path body, path ≠ [] ∧ h.walk? path = some (path, body) ∧ P (name :: path) body) := by
  constructor
  · rintro ⟨path, body, hne, hwalk, hP⟩
    cases path with
    | nil => exact absurd rfl hne
    | cons name rest =>
      obtain ⟨h, hmem, hrest⟩ := hg.walk?_cons_iff.mp hwalk
      refine ⟨name, h, hmem, ?_⟩
      cases rest with
      | nil =>
        cases hrest
        exact .inl hP
      | cons next rest => exact .inr ⟨next :: rest, body, List.cons_ne_nil _ _, hrest, hP⟩
  · rintro ⟨name, h, hmem, hP | ⟨path, body, -, hwalk, hP⟩⟩
    · exact ⟨[name], h, List.cons_ne_nil _ _, hg.walk?_cons_iff.mpr ⟨h, hmem, rfl⟩, hP⟩
    · exact ⟨name :: path, body, List.cons_ne_nil _ _, hg.walk?_cons_iff.mpr ⟨h, hmem, hwalk⟩, hP⟩

theorem no_place_of_not_nested (hg : g.isNestedTable = false) (P : List String → Grammar → Prop) :
    ¬ ∃ path body, path ≠ [] ∧ g.walk? path = some (path, body) ∧ P path body := by
  rintro ⟨path, body, hne, hwalk, -⟩
  exact hne (walk?_of_not_nested hg hwalk).1

/-- The definitions of a collection are those that the paths through it lead to. -/
theorem Scoped.mem_definitions_iff (hg : g.Scoped) (hscope : ∀ name ∈ scope, Plain name) :
    d ∈ definitions scope g.inner ↔ ∃ path body, path ≠ [] ∧ g.walk? path = some (path, body) ∧
      body.isNestedTable = false ∧ d = .at (scope ++ path) body := by
  induction hg generalizing scope with
  | @definition g hflat =>
    have hg := isNestedTable_of_hasNested hflat
    rw [inner_of_not_nested hg]
    exact iff_of_false List.not_mem_nil (no_place_of_not_nested hg _)
  | @collection m members hkeys hnames hmembers ih =>
    have hg : (table m .nested members).Scoped := .collection m hkeys hnames hmembers
    rw [definitions_eq, List.mem_flatMap, Prod.exists, hg.exists_place_iff]
    refine exists_congr fun name => exists_congr fun h => and_congr_right fun hmem => ?_
    cases hh : h.isNestedTable with
    | true =>
      rw [definitionsOf_of_nested hh, ih _ hmem (plain_concat hscope (hg.plain_of_mem hmem hh))]
      simp
    | false =>
      rw [definitionsOf_of_not_nested hh hscope, List.mem_singleton, or_iff_left (no_place_of_not_nested hh _)]
      simp

@[simp] theorem collectionKeys_eq (scope : List String) (entries : List (String × Grammar)) :
    collectionKeys scope entries = entries.flatMap fun entry => collectionKeysOf scope entry.1 entry.2 := by
  induction entries with
  | nil => rfl
  | cons entry rest ih => rw [collectionKeys, ih, List.flatMap_cons]

theorem collectionKeysOf_of_nested (hg : g.isNestedTable = true) (hscope : ∀ name ∈ scope, Plain name) :
    collectionKeysOf scope name g = key (dotted (scope ++ [name])) :: collectionKeys (scope ++ [name]) g.inner := by
  obtain ⟨m, hg⟩ := exists_eq_of_nested hg
  rw [← qualifyIn_dotted hscope (List.cons_ne_nil _ _), dotted_singleton, hg]
  rfl

theorem collectionKeysOf_of_not_nested (hg : g.isNestedTable = false) : collectionKeysOf scope name g = [] := by
  unfold collectionKeysOf
  split
  · cases hg
  · rfl

/-- The collections in a collection are those that the paths through it lead to. -/
theorem Scoped.mem_collectionKeys_iff (hg : g.Scoped) (hscope : ∀ name ∈ scope, Plain name) {k : String} :
    k ∈ collectionKeys scope g.inner ↔ ∃ path body, path ≠ [] ∧ g.walk? path = some (path, body) ∧
      body.isNestedTable = true ∧ k = key (dotted (scope ++ path)) := by
  induction hg generalizing scope with
  | @definition g hflat =>
    have hg := isNestedTable_of_hasNested hflat
    rw [inner_of_not_nested hg]
    exact iff_of_false List.not_mem_nil (no_place_of_not_nested hg _)
  | @collection m members hkeys hnames hmembers ih =>
    have hg : (table m .nested members).Scoped := .collection m hkeys hnames hmembers
    rw [collectionKeys_eq, List.mem_flatMap, Prod.exists, hg.exists_place_iff]
    refine exists_congr fun name => exists_congr fun h => and_congr_right fun hmem => ?_
    cases hh : h.isNestedTable with
    | true =>
      rw [collectionKeysOf_of_nested hh hscope, List.mem_cons,
        ih _ hmem (plain_concat hscope (hg.plain_of_mem hmem hh))]
      simp
    | false =>
      rw [collectionKeysOf_of_not_nested hh, or_iff_left (no_place_of_not_nested hh _)]
      simp

/-- A definition that a member contributes has the member's name in its path. -/
theorem Scoped.exists_of_mem_definitionsOf (hg : g.Scoped) (hscope : ∀ name ∈ scope, Plain name) {h : Grammar}
    (hmem : (name, h) ∈ g.inner) (hd : d ∈ definitionsOf scope name h) :
    ∃ rest body, d = .at (scope ++ name :: rest) body ∧ IsPath (name :: rest) := by
  obtain ⟨hname, hscoped⟩ := hg.inner.2 (name, h) hmem
  cases hh : h.isNestedTable with
  | true =>
    have hplain := hg.plain_of_mem hmem hh
    rw [definitionsOf_of_nested hh, hscoped.mem_definitions_iff (plain_concat hscope hplain)] at hd
    obtain ⟨path, body, hne, hwalk, -, rfl⟩ := hd
    exact ⟨path, body, by simp, .inside hplain (hscoped.isPath_of_walk? hwalk hne)⟩
  | false =>
    rw [definitionsOf_of_not_nested hh hscope, List.mem_singleton] at hd
    refine ⟨[], h, hd, ?_⟩
    rcases hname with hplain | ⟨rfl, -⟩
    · exact .symbol hplain
    · exact .default

/-- No two definitions of a tree of collections have names of one key. -/
theorem Scoped.nodup_definitions (hg : g.Scoped) (hscope : ∀ name ∈ scope, Plain name) :
    ((definitions scope g.inner).map Definition.key).Nodup := by
  induction hg generalizing scope with
  | @definition g hflat =>
    rw [inner_of_not_nested (isNestedTable_of_hasNested hflat)]
    exact List.nodup_nil
  | @collection m members hkeys hnames hmembers ih =>
    have hg : (table m .nested members).Scoped := .collection m hkeys hnames hmembers
    rw [definitions_eq, List.map_flatMap, List.nodup_flatMap]
    refine ⟨?_, ?_⟩
    · rintro ⟨name, h⟩ hmem
      cases hh : h.isNestedTable with
      | true =>
        rw [definitionsOf_of_nested hh]
        exact ih _ hmem (plain_concat hscope (hg.plain_of_mem hmem hh))
      | false =>
        rw [definitionsOf_of_not_nested hh hscope]
        exact List.nodup_singleton _
    · refine (List.pairwise_map.mp hkeys).imp_of_mem ?_
      intro a b ha hb hne k hka hkb
      obtain ⟨d, hd, rfl⟩ := List.mem_map.mp hka
      obtain ⟨d', hd', hk⟩ := List.mem_map.mp hkb
      obtain ⟨rest, body, rfl, hpath⟩ := hg.exists_of_mem_definitionsOf hscope ha hd
      obtain ⟨rest', body', rfl, hpath'⟩ := hg.exists_of_mem_definitionsOf hscope hb hd'
      have hnames := (hpath'.append hscope).key_inj (hpath.append hscope) hk
      rw [List.map_append, List.map_append, List.append_cancel_left_eq, List.map_cons, List.map_cons] at hnames
      exact hne (List.cons.inj hnames).1.symm

end Grammar

/-- Definitions without repeated keys are all kept. -/
theorem Definition.partition_of_nodup {seen : List String} {ds : List Definition} (hnodup : (ds.map key).Nodup)
    (hseen : ∀ d ∈ ds, d.key ∉ seen) : partition seen ds = (ds, []) := by
  induction ds generalizing seen with
  | nil => rfl
  | cons first rest ih =>
    rw [List.map_cons, List.nodup_cons] at hnodup
    obtain ⟨hfirst, hrest⟩ := List.forall_mem_cons.mp hseen
    have hnext : ∀ d ∈ rest, d.key ∉ first.key :: seen := by
      intro d hd hmem
      rcases List.mem_cons.mp hmem with he | hmem
      · exact hnodup.1 (List.mem_map.mpr ⟨d, hd, he⟩)
      · exact hrest d hd hmem
    rw [partition, if_neg hfirst, ih hnodup.2 hnext]

namespace Grammar

variable {g body : Grammar} {path other spelled : List String}

/-- Nothing is left out when a tree of collections is flattened. -/
theorem Scoped.flattening_eq (hg : g.Scoped) : flattening g.inner = (definitions [] g.inner, []) :=
  Definition.partition_of_nodup (hg.nodup_definitions (by simp)) (by simp)

/-- A path and a place with one key are of one another. -/
theorem Scoped.walk?_of_key (hg : g.Scoped) (hpath : IsPath path) (hne : other ≠ [])
    (hwalk : g.walk? other = some (other, body)) (hkey : key (dotted other) = key (dotted path)) :
    g.walk? path = some (other, body) := by
  have hkeys := (hg.isPath_of_walk? hwalk hne).key_inj hpath hkey
  rw [← walk?_congr hkeys, hwalk]

theorem Scoped.key_of_walk? (hg : g.Scoped) (hpath : IsPath path) (hwalk : g.walk? path = some (spelled, body)) :
    spelled ≠ [] ∧ key (dotted path) = key (dotted spelled) := by
  have hkeys := Grammar.key_of_walk? hwalk
  have hne : spelled ≠ [] := by
    rintro rfl
    exact hpath.ne_nil (List.map_eq_nil_iff.mp hkeys.symm)
  refine ⟨hne, ?_⟩
  rw [hpath.key_dotted, (hg.isPath_of_walk? hwalk hne).key_dotted, hkeys]

theorem definition?_eq_some_iff :
    g.definition? path = some spelled ↔ ∃ body, g.walk? path = some (spelled, body) ∧ body.isNestedTable = false := by
  rw [definition?, Option.bind_eq_some_iff]
  constructor
  · rintro ⟨⟨spelled', body⟩, hwalk, hplace⟩
    cases hbody : body.isNestedTable with
    | true => simp [hbody] at hplace
    | false =>
      simp only [hbody, Bool.false_eq_true, if_false, Option.some.injEq] at hplace
      rw [← hplace]
      exact ⟨body, hwalk, hbody⟩
  · rintro ⟨body, hwalk, hbody⟩
    exact ⟨(spelled, body), hwalk, by simp [hbody]⟩

/-- The name that is listed under the key of a path is that of the definition that the path leads to. -/
theorem Scoped.names_lookup (hg : g.Scoped) (hpath : IsPath path) :
    (namespaceOf g.inner).names.lookup (key (dotted path)) = (g.definition? path).map dotted := by
  have hnames : (namespaceOf g.inner).names = (definitions [] g.inner).map fun d => (d.key, d.name) := by
    rw [namespaceOf, hg.flattening_eq]
    rfl
  have hsound (name : String) (hlookup : (namespaceOf g.inner).names.lookup (key (dotted path)) = some name) :
      (g.definition? path).map dotted = some name := by
    obtain ⟨before, after, hsplit, -⟩ := List.lookup_eq_some_iff.mp hlookup
    have hmem : (key (dotted path), name) ∈ (definitions [] g.inner).map fun d => (d.key, d.name) := by
      rw [← hnames, hsplit]
      simp
    obtain ⟨d, hd, hentry⟩ := List.mem_map.mp hmem
    obtain ⟨other, body, hne, hwalk, hbody, rfl⟩ := (hg.mem_definitions_iff (by simp)).mp hd
    obtain ⟨hkey, rfl⟩ := Prod.mk.inj hentry
    have hplace := definition?_eq_some_iff.mpr ⟨body, hg.walk?_of_key hpath hne hwalk hkey, hbody⟩
    rw [hplace]
    rfl
  cases hlookup : (namespaceOf g.inner).names.lookup (key (dotted path)) with
  | some name => rw [hsound name hlookup]
  | none =>
    cases hdefinition : g.definition? path with
    | none => rfl
    | some spelled =>
      -- the definition that the path leads to is listed
      obtain ⟨body, hwalk, hbody⟩ := definition?_eq_some_iff.mp hdefinition
      obtain ⟨hne, hkey⟩ := hg.key_of_walk? hpath hwalk
      have hd : Definition.at spelled body ∈ definitions [] g.inner :=
        (hg.mem_definitions_iff (by simp)).mpr ⟨spelled, body, hne, walk?_spelled hwalk, hbody, rfl⟩
      rw [hnames, List.lookup_eq_none_iff] at hlookup
      have hother := hlookup _ (List.mem_map.mpr ⟨_, hd, rfl⟩)
      rw [hkey] at hother
      simp [Definition.at, Definition.key] at hother

/-- The key of a path is that of a collection exactly if the path leads to one. -/
theorem Scoped.mem_collections_iff (hg : g.Scoped) (hpath : IsPath path) :
    key (dotted path) ∈ (namespaceOf g.inner).collections ↔
      ∃ spelled body, g.walk? path = some (spelled, body) ∧ body.isNestedTable = true := by
  refine (hg.mem_collectionKeys_iff (by simp)).trans ?_
  constructor
  · rintro ⟨other, body, hne, hwalk, hbody, hkey⟩
    exact ⟨other, body, hg.walk?_of_key hpath hne hwalk hkey.symm, hbody⟩
  · rintro ⟨spelled, body, hwalk, hbody⟩
    obtain ⟨hne, hkey⟩ := hg.key_of_walk? hpath hwalk
    exact ⟨spelled, body, hne, walk?_spelled hwalk, hbody, hkey⟩

/-- What the lists hold under the key of a path is what the path stands for. -/
theorem Scoped.atKey?_dotted (hg : g.Scoped) (hpath : IsPath path) :
    (namespaceOf g.inner).atKey? (key (dotted path)) = (g.target? path).map dotted := by
  rw [Namespace.atKey?, hg.names_lookup hpath]
  cases hwalk : g.walk? path with
  | none =>
    have hnone : g.definition? path = none := by rw [definition?, hwalk]; rfl
    have hcollection : key (dotted path) ∉ (namespaceOf g.inner).collections := by
      rw [hg.mem_collections_iff hpath, hwalk]
      simp
    rw [hnone, target?, hwalk]
    exact if_neg hcollection
  | some place =>
    obtain ⟨spelled, body⟩ := place
    cases hbody : body.isNestedTable with
    | false =>
      have hdefinition : g.definition? path = some spelled := definition?_eq_some_iff.mpr ⟨body, hwalk, hbody⟩
      rw [hdefinition, target?, hwalk]
      simp [hbody]
    | true =>
      have hnone : g.definition? path = none := by rw [definition?, hwalk]; simp [hbody]
      have hcollection := (hg.mem_collections_iff hpath).mpr ⟨spelled, body, hwalk, hbody⟩
      have hplain := hg.plain_of_walk? hwalk hbody
      obtain ⟨hne, hkey⟩ := hg.key_of_walk? hpath hwalk
      -- the default is listed under the key of the path through the collection to it
      have hdefault : Symbol.qualify (key (dotted path)) allName = key (dotted (spelled ++ [allName])) := by
        rw [hkey]
        exact qualify_key_dotted hplain hne
      have hinner : g.definition? (spelled ++ [allName]) = _ := definition?_append (walk?_spelled hwalk)
      rw [hnone, target?, hwalk]
      simp [hbody, hcollection, hdefault, hg.names_lookup (IsPath.default.append hplain), hinner]

end Grammar

end SheetGrammar
