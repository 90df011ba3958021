import Mathlib.Data.List.Forall2
import SheetGrammar.Proofs.LetterCase
import SheetGrammar.Proofs.LexicalScope

/-!
Defaults and their members. A default is written before any name is qualified: it embeds the members of its collection
by the names that they have there, and the default of a member that is a collection by a dotted name. What these names
refer to is found later, by texts, among the qualified names of the whole tree. If no two of those have one key, every
name finds the member that it was written for. One member is lost: the name of a collection without a name leaves no
trace in a dotted name, and the default that should embed the one inside embeds itself.

- `Leads`: the places in a tree of collections, by the names on the way.
- `Leads.mem_definitions`: what is defined at a place has its qualified name.
- `Unambiguous.find?_eq`: of definitions that can be told apart, each is found by its key.
- `Child`: what a member becomes in the default of its collection; `child_of_mem`: every member does.
- `defaults_embed_members`: the default of a collection that had none, from member to member.
-/

namespace SheetGrammar

open SheetGrammar.Symbol

/-! ## Definitions that can be told apart -/

namespace Definition

variable {ds : List Definition} {d : Definition}

/-- If none has the key of another, all are kept. -/
theorem partition_fst_of_snd {seen : List String} (h : (partition seen ds).2 = []) : (partition seen ds).1 = ds := by
  induction ds generalizing seen with
  | nil => rfl
  | cons first rest ih =>
    unfold partition at h ⊢
    by_cases hfirst : first.key ∈ seen
    · rw [if_pos hfirst] at h
      cases h
    · rw [if_neg hfirst] at h ⊢
      exact congrArg (first :: ·) (ih h)

theorem lookup_of_nodup (hnodup : (ds.map key).Nodup) (hd : d ∈ ds) :
    (ds.map fun d => (d.key, d.name)).lookup d.key = some d.name := by
  induction ds with
  | nil => cases hd
  | cons first rest ih =>
    rw [List.map_cons, List.nodup_cons] at hnodup
    rw [List.map_cons, List.lookup_cons]
    rcases List.mem_cons.mp hd with rfl | hd
    · simp
    · have hne : (d.key == first.key) = false :=
        beq_eq_false_iff_ne.mpr fun he => hnodup.1 (he ▸ List.mem_map_of_mem hd)
      rw [hne]
      exact ih hnodup.2 hd

end Definition

namespace Grammar

variable {g h c body root : Grammar} {name text found : String} {path scope : List String} {d d' : Definition}

def Unambiguous (g : Grammar) : Prop := ((definitions [] g.inner).map Definition.key).Nodup

theorem unambiguous_of_messages (m : Mark) (members : List (String × Grammar))
    (h : ∀ message ∈ (table m .nested members).qualifyNames.2, ∀ name, message.finding ≠ .ambiguousSymbol name) :
    (table m .nested members).Unambiguous := by
  have hrepeated : (flattening members).2 = [] := by
    rw [List.eq_nil_iff_forall_not_mem]
    intro d hd
    exact h ⟨.ambiguousSymbol d.name, d.body.pos⟩ (List.mem_append_left _ (List.mem_map_of_mem hd)) d.name rfl
  have hnodup := (Definition.nodup_partition [] (definitions [] members)).1
  rwa [Definition.partition_fst_of_snd hrepeated] at hnodup

/-- What is found in the innermost collection is what a name refers to. -/
theorem find?_of_atKey? {space : Namespace} (h : space.atKey? (key (qualifyIn scope text)) = some found) :
    space.find? text scope.reverse = some found := by
  rcases List.eq_nil_or_concat' scope with rfl | ⟨outer, inner, rfl⟩
  · exact h
  · rw [find?_concat, h]
    rfl

namespace Unambiguous

variable (hg : g.Unambiguous)
include hg

theorem flattening_eq : flattening g.inner = (definitions [] g.inner, []) :=
  Definition.partition_of_nodup hg (by simp)

theorem eq_of_key (hd : d ∈ definitions [] g.inner) (hd' : d' ∈ definitions [] g.inner) (hkey : d.key = d'.key) :
    d = d' :=
  List.inj_on_of_nodup_map hg hd hd' hkey

/-- A name that has the key of a definition inside a scope refers to it there. -/
theorem find?_eq (hd : d ∈ definitions [] g.inner) (hkey : key (qualifyIn scope text) = d.key) :
    (namespaceOf g.inner).find? text scope.reverse = some d.name := by
  have hlookup : (namespaceOf g.inner).names.lookup d.key = some d.name := by
    rw [namespaceOf, hg.flattening_eq]
    exact Definition.lookup_of_nodup hg hd
  apply find?_of_atKey?
  rw [hkey, Namespace.atKey?, hlookup]

end Unambiguous

/-- Flattened, such a collection has all its definitions. -/
theorem Unambiguous.qualifyNames_eq {m : Mark} {members : List (String × Grammar)}
    (hg : (table m .nested members).Unambiguous) : (table m .nested members).qualifyNames.1 = table (.ofPos m.pos) .flat
      ((definitions [] members).map fun d => (d.name, d.body.resolve (d.refer (namespaceOf members)))) := by
  have hflat : flattening members = (definitions [] members, []) := hg.flattening_eq
  rw [qualifyNames, hflat]

/-! ## Places in a tree of collections -/

inductive Leads : Grammar → List String → Grammar → Prop
  | here (g : Grammar) : Leads g [] g
  | inside {g h c : Grammar} {name : String} {path : List String} :
      (name, h) ∈ g.inner → Leads h path c → Leads g (name :: path) c

theorem isNestedTable_of_mem_inner {entry : String × Grammar} (hmem : entry ∈ g.inner) : g.isNestedTable = true := by
  by_contra hg
  rw [inner_of_not_nested (Bool.eq_false_iff.mpr hg)] at hmem
  cases hmem

namespace Leads

theorem concat (hc : Leads g path c) (hmem : (name, h) ∈ c.inner) : Leads g (path ++ [name]) h := by
  induction hc with
  | here g => exact .inside hmem (.here h)
  | inside hfirst _ ih => exact .inside hfirst (ih hmem)

theorem mem_nodes (hc : Leads g path c) : c ∈ g.nodes := by
  induction hc with
  | here g => exact self_mem_nodes g
  | @inside g h c name path hmem hc ih =>
    obtain ⟨m, hg⟩ := exists_eq_of_nested (isNestedTable_of_mem_inner hmem)
    rw [hg, mem_nodes_table]
    exact .inr ⟨(name, h), hmem, ih⟩

/-- What is defined in a collection is listed under its name inside the collections on the way. -/
theorem mem_definitions (hc : Leads g path c) (hmem : (name, body) ∈ c.inner) (hbody : body.isNestedTable = false)
    (scope : List String) : ⟨qualifyIn (scope ++ path) name, scope ++ path, body⟩ ∈ definitions scope g.inner := by
  induction hc generalizing scope with
  | here g =>
    rw [definitions_eq, List.append_nil]
    refine List.mem_flatMap.mpr ⟨(name, body), hmem, ?_⟩
    rw [definitionsOf_leaf hbody]
    exact List.mem_singleton_self _
  | @inside g h c first path hfirst hc ih =>
    have hnested : h.isNestedTable = true := by
      cases hc with
      | here => exact isNestedTable_of_mem_inner hmem
      | inside hnext _ => exact isNestedTable_of_mem_inner hnext
    rw [definitions_eq]
    refine List.mem_flatMap.mpr ⟨(first, h), hfirst, ?_⟩
    rw [definitionsOf_of_nested hnested, List.append_cons scope first path]
    exact ih hmem (scope ++ [first])

end Leads

/-! ## Collections with their defaults -/

@[simp] theorem isNestedTable_assignDefaults (g : Grammar) : g.assignDefaults.isNestedTable = g.isNestedTable := by
  cases g with
  | table m scoping entries => cases scoping <;> rfl
  | _ => rfl

theorem mem_inner_assignDefaults {name : String} {h : Grammar} (hmem : (name, h) ∈ g.inner) :
    (name, h.assignDefaults) ∈ g.assignDefaults.inner := by
  by_cases hg : g.isNestedTable = true
  · obtain ⟨m, hg⟩ := exists_eq_of_nested hg
    rw [hg] at hmem ⊢
    rw [assignDefaults_nested, inner, withDefault]
    have hmember := List.mem_map_of_mem (f := fun entry : String × Grammar => (entry.1, entry.2.assignDefaults)) hmem
    split
    · exact hmember
    · exact List.mem_append_left _ hmember
  · rw [inner_of_not_nested (Bool.eq_false_iff.mpr hg)] at hmem
    cases hmem

theorem Leads.assignDefaults (hc : Leads g path c) : Leads g.assignDefaults path c.assignDefaults := by
  induction hc with
  | here g => exact .here _
  | inside hmem _ ih => exact .inside (mem_inner_assignDefaults hmem) ih

/-- A collection without a default gets one. -/
theorem default_mem_inner (hc : c.isNestedTable = true) (hnone : c.inner.contains allName = false) :
    (allName, defaultOf c.pos (c.inner.redefine fun entry => entry.2.assignDefaults)) ∈ c.assignDefaults.inner := by
  obtain ⟨m, hc⟩ := exists_eq_of_nested hc
  have hassigned : ¬ (c.inner.redefine fun entry => entry.2.assignDefaults).contains allName = true := by
    rw [SymbolTable.contains_redefine, hnone]
    exact Bool.false_ne_true
  rw [hc, assignDefaults_nested, inner, withDefault, if_neg hassigned]
  exact List.mem_append_right _ (List.mem_singleton_self _)

/-- Every collection has a default in the end, which is a definition if none of its collections has that name. -/
theorem exists_default (hc : c.isNestedTable = true)
    (hnames : ∀ entry ∈ c.inner, entry.2.isNestedTable = true → key entry.1 ≠ allName) :
    ∃ spelled body, (spelled, body) ∈ c.assignDefaults.inner ∧ key spelled = allName ∧ body.isNestedTable = false := by
  cases hcontains : c.inner.contains allName with
  | true =>
    obtain ⟨entry, he, hkey⟩ := SymbolTable.contains_iff.mp hcontains
    rw [key_allName] at hkey
    refine ⟨entry.1, entry.2.assignDefaults, mem_inner_assignDefaults he, hkey, ?_⟩
    rw [isNestedTable_assignDefaults]
    exact Bool.eq_false_iff.mpr fun hnested => hnames entry he hnested hkey
  | false => exact ⟨allName, _, default_mem_inner hc hcontains, key_allName, rfl⟩

/-! ## What a default embeds -/

/-- The definition that stands for a member of the collection at `path`, once there are defaults: the member, or the
default of the collection that it is. -/
inductive StandsFor (path : List String) : String × Grammar → Definition → Prop
  | definition {name : String} {g : Grammar} : g.isNestedTable = false →
      StandsFor path (name, g) ⟨qualifyIn path name, path, g.assignDefaults⟩
  | collection {name spelled : String} {g body : Grammar} :
      g.isNestedTable = true → (spelled, body) ∈ g.assignDefaults.inner →
      key spelled = allName → StandsFor path (name, g) ⟨qualifyIn (path ++ [name]) spelled, path ++ [name], body⟩

inductive Child (root : Grammar) (path : List String) : String × Grammar → Grammar → Prop
  /-- An embed of the definition that stands for it, which is not the default itself. -/
  | member {entry : String × Grammar} {d : Definition} :
      (entry.2.isNestedTable = true → entry.1 ≠ "") → StandsFor path entry d →
      d ∈ definitions [] root.assignDefaults.inner → d.key ≠ key (qualifyIn path allName) →
        Child root path entry (embed {} d.name)
  /-- A collection without a name is lost, and the default embeds itself. -/
  | unnamed {g : Grammar} : g.isNestedTable = true → Child root path ("", g) (embed {} (qualifyIn path allName))

theorem qualifyIn_inj {name other : String} (he : qualifyIn scope name = qualifyIn scope other) : name = other := by
  unfold qualifyIn qualify at he
  by_cases hscope : (String.intercalate "." scope).isEmpty = true
  · rwa [if_pos hscope, if_pos hscope] at he
  · rw [if_neg hscope, if_neg hscope] at he
    simpa using he

/-- All spellings of the name of a default come to the same inside a collection. -/
theorem key_qualifyIn_allName {spelled : String} (hkey : key spelled = allName) (scope : List String) :
    key (qualifyIn scope spelled) = key (qualifyIn scope allName) := by
  have hopens : opensOnFinalSigma spelled = false := by
    by_contra hsigma
    have hmem := sigma_mem_key (Bool.eq_true_of_not_eq_false hsigma)
    rw [hkey] at hmem
    exact absurd hmem (by decide)
  refine key_qualifyIn_congr (hkey.trans key_allName.symm) ?_ scope
  rw [hopens]
  decide +kernel

theorem qualifyIn_default (hpath : path ≠ [""]) (hname : name ≠ "") :
    qualifyIn path (qualify name allName) = qualifyIn (path ++ [name]) allName := by
  have hdotted : qualify name allName = dotted [name, allName] := by
    have hscope : [name] ≠ [""] := by simpa using hname
    have hqualified := qualifyIn_of_ne hscope allName
    rwa [qualifyIn, String.intercalate_singleton] at hqualified
  rw [hdotted, qualifyIn_dotted_of_ne hpath (List.cons_ne_nil _ _), qualifyIn_of_ne (concat_ne_unnamed hname),
    List.append_assoc]
  rfl

theorem resolve_embed_of_refer {refer : String → Option String} (hrefer : refer text = some found) :
    (embed {} text).resolve refer = embed {} found := by
  rw [resolve_embed, hrefer]
  rfl

theorem resolve_defaultOf (pos : Option Position) (entries : List (String × Grammar)) (refer : String → Option String) :
    (defaultOf pos entries).resolve refer =
      combine (.ofPos pos) .alternation (entries.map fun entry => (memberEmbed entry).resolve refer) := by
  rw [defaultOf, resolve_combine, List.map_map]
  rfl

section Resolved

variable (hroot : root.isNestedTable = true) (hdistinct : root.assignDefaults.Unambiguous)
  (hnames : ∀ n ∈ root.nodes, ∀ entry ∈ n.inner, entry.2.isNestedTable = true → key entry.1 ≠ allName)
include hroot hdistinct hnames

/-- A collection without a name can only be inside another: its default has the qualified name of the outermost one. -/
theorem Leads.ne_unnamed (hc : Leads root path c) (hnested : c.isNestedTable = true) : path ≠ [""] := by
  intro hpath
  obtain ⟨outer, body, hmem, hkey, hbody⟩ := exists_default hroot (hnames root (self_mem_nodes root))
  obtain ⟨inner, body', hmem', hkey', hbody'⟩ := exists_default hnested (hnames c hc.mem_nodes)
  have hd := (Leads.here root.assignDefaults).mem_definitions hmem hbody []
  have hd' := hc.assignDefaults.mem_definitions hmem' hbody' []
  have hsame := hdistinct.eq_of_key hd hd' (by
    rw [Definition.key, Definition.key, hpath]
    simp [qualifyIn, qualify, hkey, hkey'])
  have hscopes := congrArg Definition.scope hsame
  simp [hpath] at hscopes

/-- The embed of a member in the default of its collection finds what stands for the member, unless that is a
collection without a name. -/
theorem child_of_mem (hc : Leads root path c) (hnone : c.inner.contains allName = false) {entry : String × Grammar}
    (he : entry ∈ c.inner) :
    Child root path entry
      ((memberEmbed (entry.1, entry.2.assignDefaults)).resolve
        ((namespaceOf root.assignDefaults.inner).find? · path.reverse)) := by
  obtain ⟨name, g⟩ := entry
  have hnested := isNestedTable_of_mem_inner he
  -- the default itself
  have hdefault := hc.assignDefaults.mem_definitions (default_mem_inner hnested hnone) rfl []
  cases hg : g.isNestedTable with
  | false =>
    have hd := hc.assignDefaults.mem_definitions (mem_inner_assignDefaults he)
      ((isNestedTable_assignDefaults g).trans hg) []
    rw [memberEmbed, isNestedTable_assignDefaults, hg, if_neg Bool.false_ne_true,
      resolve_embed_of_refer (hdistinct.find?_eq hd rfl)]
    refine .member (fun hnested => absurd hnested (Bool.eq_false_iff.mp hg)) (.definition hg) hd ?_
    intro hkey
    have hname := qualifyIn_inj (congrArg Definition.name (hdistinct.eq_of_key hd hdefault hkey))
    have hcontains := SymbolTable.contains_of_mem he
    simp only [hname, hnone] at hcontains
    cases hcontains
  | true =>
    rw [memberEmbed, isNestedTable_assignDefaults, hg, if_pos rfl]
    by_cases hname : name = ""
    · subst hname
      rw [resolve_embed_of_refer (hdistinct.find?_eq hdefault rfl)]
      exact .unnamed hg
    · obtain ⟨spelled, body, hmem, hkey, hbody⟩ := exists_default hg (hnames g (hc.concat he).mem_nodes)
      have hd := (hc.concat he).assignDefaults.mem_definitions hmem hbody []
      have hfound : key (qualifyIn path (qualify name allName)) = key (qualifyIn ([] ++ (path ++ [name])) spelled) := by
        rw [qualifyIn_default (hc.ne_unnamed hroot hdistinct hnames hnested) hname, List.nil_append,
          key_qualifyIn_allName hkey]
      rw [resolve_embed_of_refer (hdistinct.find?_eq hd hfound)]
      refine .member (fun _ => hname) (.collection hg hmem hkey) hd ?_
      intro hkey
      have hscopes := congrArg Definition.scope (hdistinct.eq_of_key hd hdefault hkey)
      simp at hscopes

end Resolved

/-- Flattened, the default of a collection that had none is the alternation of its members in their order. Each is an
embed of the definition that stands for the member, never of the default itself, unless the member is a collection
without a name. -/
theorem defaults_embed_members (m : Mark) (members : List (String × Grammar))
    (hnames : ∀ n ∈ (table m .nested members).nodes, ∀ entry ∈ n.inner, entry.2.isNestedTable = true →
      key entry.1 ≠ allName)
    (hmessages : ∀ message ∈ (table m .nested members).assignDefaults.qualifyNames.2, ∀ name,
      message.finding ≠ .ambiguousSymbol name) :
    ∃ made : Definition → Grammar,
      (table m .nested members).assignDefaults.qualifyNames.1 =
        table (.ofPos m.pos) .flat
          ((definitions [] (table m .nested members).assignDefaults.inner).map fun d => (d.name, made d)) ∧
      SymbolTable.WellFormed
        ((definitions [] (table m .nested members).assignDefaults.inner).map fun d => (d.name, made d)) ∧
      ∀ path c, (table m .nested members).Leads path c → c.isNestedTable = true → c.inner.contains allName = false →
        ∃ d ∈ definitions [] (table m .nested members).assignDefaults.inner, ∃ children,
          d.name = qualifyIn path allName ∧ made d = combine (.ofPos c.pos) .alternation children ∧
          List.Forall₂ (Child (table m .nested members) path) c.inner children := by
  have hdistinct : (table m .nested members).assignDefaults.Unambiguous := unambiguous_of_messages _ _ hmessages
  refine ⟨fun d => d.body.resolve (d.refer (namespaceOf (table m .nested members).assignDefaults.inner)), ?_, ?_, ?_⟩
  · exact Unambiguous.qualifyNames_eq hdistinct
  · rw [SymbolTable.WellFormed, SymbolTable.keys, List.map_map]
    exact hdistinct
  · intro path c hc hnested hnone
    refine ⟨_, hc.assignDefaults.mem_definitions (default_mem_inner hnested hnone) rfl [], _, rfl,
      resolve_defaultOf _ _ _, ?_⟩
    rw [SymbolTable.redefine, List.map_map, List.forall₂_map_right_iff, List.forall₂_same]
    intro entry he
    exact child_of_mem rfl hdistinct hnames hc hnone he

/-- With a dotted name, a symbol without one, collections that share a name at two depths, and a default that is there
already. -/
theorem defaults_embed_members_shadowed :
    let shadowed : Grammar := .table {} .nested [("x", .literal {} "t" "y"), (".ALL", .embed {} "x")]
    let inside : Grammar :=
      .table {} .nested [("A", shadowed), ("", .epsilon {}), ("b.c", .table {} .nested [("a", .null {})])]
    let members := [("A", .table {} .nested [("x", .embed {} "d")]), ("D", inside)]
    let root : Grammar := .table {} .nested members
    (∀ n ∈ root.nodes, ∀ entry ∈ n.inner, entry.2.isNestedTable = true → key entry.1 ≠ allName) ∧
      (∀ message ∈ root.assignDefaults.qualifyNames.2, ∀ name, message.finding ≠ .ambiguousSymbol name) ∧
      ∃ made : Definition → Grammar,
        root.assignDefaults.qualifyNames.1 =
          table (.ofPos none) .flat ((definitions [] root.assignDefaults.inner).map fun d => (d.name, made d)) ∧
        SymbolTable.WellFormed ((definitions [] root.assignDefaults.inner).map fun d => (d.name, made d)) ∧
        ∀ path c, root.Leads path c → c.isNestedTable = true → c.inner.contains allName = false →
          ∃ d ∈ definitions [] root.assignDefaults.inner, ∃ children,
            d.name = qualifyIn path allName ∧ made d = combine (.ofPos c.pos) .alternation children ∧
            List.Forall₂ (Child root path) c.inner children := by
  intro shadowed inside members root
  have hnames : ∀ n ∈ root.nodes, ∀ entry ∈ n.inner, entry.2.isNestedTable = true → key entry.1 ≠ allName := by
    decide +kernel
  have hmessages : root.assignDefaults.qualifyNames.2 = [] := by decide +kernel
  have hdistinct : ∀ message ∈ root.assignDefaults.qualifyNames.2, ∀ name, message.finding ≠ .ambiguousSymbol name := by
    rw [hmessages]
    intro message hmem
    cases hmem
  exact ⟨hnames, hdistinct, defaults_embed_members {} members hnames hdistinct⟩

/-- The default of `A` should embed that of the collection without a name, and embeds itself. -/
theorem default_of_unnamed_embeds_itself :
    let unnamed : Grammar := .table {} .nested [("x", .literal {} "t" "y")]
    let root : Grammar := .table {} .nested [("A", .table {} .nested [("", unnamed)])]
    (∀ n ∈ root.nodes, ∀ entry ∈ n.inner, entry.2.isNestedTable = true → key entry.1 ≠ allName) ∧
      root.assignDefaults.qualifyNames.2 = [] ∧
      root.assignDefaults.qualifyNames.1.render =
        "(qual (A..x t:y) (A...all (alt $A..x)) (A..all (alt $A..all)) (.all (alt $A..all)))" := by
  decide +kernel

end Grammar

end SheetGrammar
