import SheetGrammar.Grammar.Inference
import SheetGrammar.Proofs.SymbolKeys

/-!
The nodes of a grammar. Statements about "every node" and "every embed" are made about `Grammar.nodes`:
- `mem_nodes_iff`: a node of a grammar is the grammar itself or a node of a child.
- `hasNested_iff`: a grammar has a collection in it exactly when one of its nodes is one.
- `mem_embeds_iff`: without collections, the keys that a grammar embeds are those of its embed nodes.
- `nodes_rewrite`: a rewriting that leaves every node its children rewrites the nodes one by one.
- `WellFormed.rewrite`, `eq_rewrite_of_reinserts`: where all tables tell names apart, it does not matter whether a
  rewriting leaves the entries in their places or makes the tables anew.
- `SymbolTable.Embeds`: the embed relation between the symbols of a table.
-/

namespace SheetGrammar

namespace Grammar

variable {g n : Grammar} {key : String} {change : Grammar → Grammar}

/-! ## Nodes -/

theorem nodes_eq (g : Grammar) : g.nodes = g :: g.children.flatMap nodes := by
  rw [List.flatMap_def]
  exact fold_eq _ g

theorem mem_nodes_iff : n ∈ g.nodes ↔ n = g ∨ ∃ child ∈ g.children, n ∈ child.nodes := by
  rw [nodes_eq, List.mem_cons, List.mem_flatMap]

theorem self_mem_nodes (g : Grammar) : g ∈ g.nodes := mem_nodes_iff.mpr (.inl rfl)

theorem mem_nodes_of_mem_children {child : Grammar} (hc : child ∈ g.children) (h : n ∈ child.nodes) : n ∈ g.nodes :=
  mem_nodes_iff.mpr (.inr ⟨child, hc, h⟩)

theorem mem_nodes_combine {m : Mark} {how : Combination} {parts : List Grammar} :
    n ∈ (combine m how parts).nodes ↔ n = combine m how parts ∨ ∃ g ∈ parts, n ∈ g.nodes := mem_nodes_iff

theorem mem_nodes_relabel {m : Mark} {how : Relabelling} {body : Grammar} :
    n ∈ (relabel m how body).nodes ↔ n = relabel m how body ∨ n ∈ body.nodes := by
  simp only [mem_nodes_iff (g := relabel m how body), children, List.mem_singleton, exists_eq_left]

theorem mem_nodes_table {m : Mark} {scoping : Scoping} {entries : List (String × Grammar)} :
    n ∈ (table m scoping entries).nodes ↔ n = table m scoping entries ∨ ∃ entry ∈ entries, n ∈ entry.2.nodes := by
  rw [mem_nodes_iff]
  refine or_congr_right ⟨fun ⟨child, hc, hn⟩ => ?_, fun ⟨entry, he, hn⟩ => ⟨entry.2, List.mem_map_of_mem he, hn⟩⟩
  obtain ⟨entry, he, rfl⟩ := List.mem_map.mp hc
  exact ⟨entry, he, hn⟩

theorem children_rewrite (h : ∀ g, (change g).children = g.children) (g : Grammar) :
    (g.rewrite change).children = g.children.map (rewrite change) := by
  rw [rewrite_eq, h, children_mapChildren]

/-- A rewriting that leaves every node its children rewrites the nodes one by one. -/
theorem nodes_rewrite (h : ∀ n ∈ g.nodes, (n.rewrite change).children = n.children.map (rewrite change)) :
    (g.rewrite change).nodes = g.nodes.map (rewrite change) := by
  induction g using inductChildren with
  | step g ih =>
    have hchildren : ∀ child ∈ g.children, (child.rewrite change).nodes = child.nodes.map (rewrite change) := by
      intro child hc
      exact ih child hc fun n hn => h n (mem_nodes_of_mem_children hc hn)
    rw [nodes_eq, nodes_eq g, h g (self_mem_nodes g), List.map_cons, List.map_flatMap, List.flatMap_map]
    exact congrArg _ (by rw [List.flatMap_def, List.flatMap_def, List.map_congr_left hchildren])

/-! ## Collections -/

/-- A grammar has a collection in it exactly when one of its nodes is one. -/
theorem hasNested_iff : g.hasNested = true ↔ ∃ n ∈ g.nodes, n.isNestedTable = true := List.any_eq_true

theorem hasNested_eq_false_iff : g.hasNested = false ↔ ∀ n ∈ g.nodes, n.isNestedTable = false := by
  simp [hasNested]

theorem hasNested_eq (g : Grammar) : g.hasNested = (g.isNestedTable || g.children.any hasNested) := by
  rw [hasNested, nodes_eq, List.any_cons, List.any_flatMap]
  rfl

theorem isNestedTable_of_hasNested_eq_false (h : g.hasNested = false) : g.isNestedTable = false :=
  hasNested_eq_false_iff.mp h g (self_mem_nodes g)

theorem hasNested_eq_false_of_mem_children {child : Grammar} (h : g.hasNested = false) (hc : child ∈ g.children) :
    child.hasNested = false :=
  hasNested_eq_false_iff.mpr fun n hn => hasNested_eq_false_iff.mp h n (mem_nodes_of_mem_children hc hn)

/-- Children that are each changed without a collection coming or going. -/
theorem hasNested_mapChildren (h : ∀ child ∈ g.children, (change child).hasNested = child.hasNested) :
    (g.mapChildren change).hasNested = g.hasNested := by
  rw [hasNested_eq, hasNested_eq g, isNestedTable_mapChildren, children_mapChildren, List.any_map]
  refine congrArg _ (Bool.eq_iff_iff.mpr ?_)
  simp only [List.any_eq_true, Function.comp_apply]
  exact exists_congr fun child => and_congr_right fun hc => by rw [h child hc]

@[simp] theorem hasNested_withMark (new : Mark) (g : Grammar) : (g.withMark new).hasNested = g.hasNested := by
  rw [hasNested_eq, hasNested_eq g, isNestedTable_withMark, children_withMark]

@[simp] theorem hasNested_relabel (m : Mark) (how : Relabelling) (body : Grammar) :
    (relabel m how body).hasNested = body.hasNested := by
  simp [hasNested_eq (relabel m how body), isNestedTable, children]

/-- A rewriting that keeps the children of a node, and does not turn it into a collection or one into something else. -/
theorem hasNested_rewrite (hchildren : ∀ g, (change g).children = g.children)
    (hkind : ∀ g, (change g).isNestedTable = g.isNestedTable) (g : Grammar) :
    (g.rewrite change).hasNested = g.hasNested := by
  induction g using inductChildren with
  | step g ih => rw [rewrite_eq, hasNested_eq, hchildren, hkind, ← hasNested_eq, hasNested_mapChildren ih]

theorem hasNested_combine {m : Mark} {how : Combination} {parts : List Grammar} :
    (combine m how parts).hasNested = false ↔ ∀ g ∈ parts, g.hasNested = false := by
  simp [hasNested_eq (combine m how parts), isNestedTable, children]

theorem hasNested_flat {m : Mark} {entries : List (String × Grammar)} :
    (table m .flat entries).hasNested = false ↔ ∀ entry ∈ entries, entry.2.hasNested = false := by
  simp [hasNested_eq (table m .flat entries), isNestedTable, children]

/-- A flat table of definitions without collections has none anywhere. -/
theorem isNestedTable_of_mem_nodes_flat {m : Mark} {entries : List (String × Grammar)}
    (hflat : ∀ entry ∈ entries, entry.2.hasNested = false) (h : n ∈ (table m .flat entries).nodes) :
    n.isNestedTable = false := by
  rcases mem_nodes_table.mp h with rfl | ⟨entry, he, hn⟩
  · rfl
  · exact hasNested_eq_false_iff.mp (hflat entry he) n hn

/-! ## Embeds -/

theorem embeds_eq (g : Grammar) :
    g.embeds = match g with
      | embed _ symbol => [Symbol.key symbol]
      | table _ .nested _ => []
      | g => g.children.flatMap embeds := by
  rw [embeds, fold_eq]
  rcases g with _ | _ | _ | _ | _ | _ | ⟨_, _ | _, _⟩ <;> rfl

/-- What a grammar embeds are the keys of embed nodes. -/
theorem exists_of_mem_embeds (h : key ∈ g.embeds) : ∃ m symbol, embed m symbol ∈ g.nodes ∧ Symbol.key symbol = key := by
  induction g using inductChildren with
  | step g ih =>
    rw [embeds_eq] at h
    split at h
    · next m symbol => exact ⟨m, symbol, self_mem_nodes _, (List.mem_singleton.mp h).symm⟩
    · cases h
    · obtain ⟨child, hc, hk⟩ := List.mem_flatMap.mp h
      obtain ⟨m, symbol, hmem, hs⟩ := ih child hc hk
      exact ⟨m, symbol, mem_nodes_of_mem_children hc hmem, hs⟩

theorem key_of_mem_embeds (h : key ∈ g.embeds) : Symbol.key key = key := by
  obtain ⟨m, symbol, -, rfl⟩ := exists_of_mem_embeds h
  exact Symbol.key_key symbol

theorem key_mem_embeds {m : Mark} {symbol : String} (hflat : g.hasNested = false) (h : embed m symbol ∈ g.nodes) :
    Symbol.key symbol ∈ g.embeds := by
  induction g using inductChildren with
  | step g ih =>
    have hplain := isNestedTable_of_hasNested_eq_false hflat
    rcases mem_nodes_iff.mp h with rfl | ⟨child, hc, hmem⟩
    · exact List.mem_singleton_self _
    · rw [embeds_eq]
      split
      · cases hc
      · cases hplain
      · exact List.mem_flatMap.mpr ⟨child, hc, ih child hc (hasNested_eq_false_of_mem_children hflat hc) hmem⟩

/-- Without collections, the keys that a grammar embeds are those of its embed nodes. -/
theorem mem_embeds_iff (hflat : g.hasNested = false) :
    key ∈ g.embeds ↔ ∃ m symbol, embed m symbol ∈ g.nodes ∧ Symbol.key symbol = key :=
  ⟨exists_of_mem_embeds, fun ⟨_, _, h, hs⟩ => hs ▸ key_mem_embeds hflat h⟩

/-! ## Tables that tell names apart -/

def members : Grammar → SymbolTable Grammar
  | table _ _ entries => entries
  | _ => []

/-- No table in the grammar has two entries of one key. -/
def WellFormed (g : Grammar) : Prop := ∀ n ∈ g.nodes, n.members.WellFormed

instance (g : Grammar) : Decidable g.WellFormed := inferInstanceAs (Decidable (∀ n ∈ g.nodes, n.members.WellFormed))

theorem wellFormed_iff : g.WellFormed ↔ g.members.WellFormed ∧ ∀ child ∈ g.children, child.WellFormed := by
  constructor
  · intro h
    exact ⟨h g (self_mem_nodes g), fun child hc n hn => h n (mem_nodes_of_mem_children hc hn)⟩
  · rintro ⟨hself, hchildren⟩ n hn
    rcases mem_nodes_iff.mp hn with rfl | ⟨child, hc, hn⟩
    · exact hself
    · exact hchildren child hc n hn

theorem wellFormed_leaf (hm : g.members = []) (hc : g.children = []) : g.WellFormed := by
  rw [wellFormed_iff, hm, hc]
  exact ⟨List.nodup_nil, nofun⟩

@[simp] theorem wellFormed_epsilon (m : Mark) : (epsilon m).WellFormed := wellFormed_leaf rfl rfl

@[simp] theorem wellFormed_null (m : Mark) : (null m).WellFormed := wellFormed_leaf rfl rfl

@[simp] theorem wellFormed_literal (m : Mark) (tape text : String) : (literal m tape text).WellFormed :=
  wellFormed_leaf rfl rfl

@[simp] theorem wellFormed_embed (m : Mark) (symbol : String) : (embed m symbol).WellFormed := wellFormed_leaf rfl rfl

@[simp] theorem wellFormed_combine {m : Mark} {how : Combination} {parts : List Grammar} :
    (combine m how parts).WellFormed ↔ ∀ g ∈ parts, g.WellFormed :=
  wellFormed_iff.trans (and_iff_right List.nodup_nil)

@[simp] theorem wellFormed_relabel {m : Mark} {how : Relabelling} {body : Grammar} :
    (relabel m how body).WellFormed ↔ body.WellFormed :=
  wellFormed_iff.trans ((and_iff_right List.nodup_nil).trans (List.forall_mem_singleton))

@[simp] theorem wellFormed_table {m : Mark} {scoping : Scoping} {entries : SymbolTable Grammar} :
    (table m scoping entries).WellFormed ↔ entries.WellFormed ∧ ∀ entry ∈ entries, entry.2.WellFormed :=
  wellFormed_iff.trans (and_congr_right' List.forall_mem_map)

@[simp] theorem wellFormed_withMark {new : Mark} : (g.withMark new).WellFormed ↔ g.WellFormed := by
  have hmembers : (g.withMark new).members = g.members := by cases g <;> rfl
  rw [wellFormed_iff, hmembers, children_withMark, ← wellFormed_iff]

/-- A rewriting that keeps names apart at every node. -/
theorem WellFormed.rewrite (hstep : ∀ g, g.WellFormed → (change g).WellFormed) (h : g.WellFormed) :
    (g.rewrite change).WellFormed := by
  induction g using inductChildren with
  | step g ih =>
    obtain ⟨hmembers, hchildren⟩ := wellFormed_iff.mp h
    have hmap : (g.mapChildren (Grammar.rewrite change)).members.WellFormed := by
      cases g with
      | table m scoping entries => exact SymbolTable.wellFormed_map.mpr hmembers
      | _ => exact List.nodup_nil
    rw [rewrite_eq]
    refine hstep _ (wellFormed_iff.mpr ⟨hmap, ?_⟩)
    rw [children_mapChildren]
    exact List.forall_mem_map.mpr fun child hc => ih child hc (hchildren child hc)

/-- The grammar with other children, where the entries of a table are put into an empty one in their order. -/
def reinsertChildren (change : Grammar → Grammar) : Grammar → Grammar
  | table m scoping entries =>
    table m scoping (SymbolTable.ofList (SymbolTable.redefine entries fun entry => change entry.2))
  | g => g.mapChildren change

/-- What goes through a grammar from the leaves up and makes every table by insertion is `rewrite`. -/
theorem eq_rewrite_of_reinserts {rewritten : Grammar → Grammar}
    (hrewritten : ∀ g, rewritten g = change (g.reinsertChildren rewritten)) (h : g.WellFormed) :
    rewritten g = g.rewrite change := by
  induction g using inductChildren with
  | step g ih =>
    obtain ⟨hmembers, hchildren⟩ := wellFormed_iff.mp h
    have hsame : g.reinsertChildren rewritten = g.mapChildren rewritten := by
      cases g with
      | table m scoping entries => exact congrArg (table m scoping) (SymbolTable.ofList_redefine hmembers _)
      | _ => rfl
    rw [hrewritten, hsame, rewrite_eq, mapChildren_congr fun child hc => ih child hc (hchildren child hc)]

end Grammar

/-! ## The embed relation of a table -/

/-- The definition of `a` has an embed in it that names `b`; both are keys. -/
def SymbolTable.Embeds (symbols : SymbolTable Grammar) (a b : String) : Prop :=
  ∃ g m symbol, symbols.get? a = some g ∧ Grammar.embed m symbol ∈ g.nodes ∧ Symbol.key symbol = b

end SheetGrammar
