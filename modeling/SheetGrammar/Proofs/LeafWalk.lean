import Mathlib.Logic.Basic
import Mathlib.Logic.Relation
import SheetGrammar.Proofs.GrammarNodes

/-!
The leaf walk: which tapes a grammar writes on, found by following every embed into its definition down to the literals
and naming each literal's tape anew at every relabelling on the way back up. It is a relation, `Grammar.Writes`, and
says nothing of how tape sets are computed.

- `mem_tapesWith_iff`: in a table whose embeds go down in some rank, any assignment of tape sets to symbols that gives
  each symbol the tapes of its definition agrees with the leaf walk.
- `Descends.acyclic`: in such a table no symbol reaches itself.
-/

namespace SheetGrammar

def Relabelling.apply (how : Relabelling) (tape : String) : String := if tape = how.source then how.target else tape

/-- A literal that a grammar leads to, directly or through the symbols it embeds, is on this tape once every relabelling
around it is applied. -/
inductive Grammar.Writes (symbols : SymbolTable Grammar) : Grammar → String → Prop
  | literal (m : Mark) (tape text : String) : Writes symbols (.literal m tape text) tape
  | embed (m : Mark) {symbol tape : String} {g : Grammar} :
      symbols.get? symbol = some g → Writes symbols g tape → Writes symbols (.embed m symbol) tape
  | combine (m : Mark) (how : Combination) {parts : List Grammar} {g : Grammar} {tape : String} :
      g ∈ parts → Writes symbols g tape → Writes symbols (.combine m how parts) tape
  | relabel (m : Mark) (how : Relabelling) {body : Grammar} {tape : String} :
      Writes symbols body tape → Writes symbols (.relabel m how body) (how.apply tape)
  | table (m : Mark) (scoping : Scoping) {entries : List (String × Grammar)} {entry : String × Grammar}
      {tape : String} :
      entry ∈ entries → Writes symbols entry.2 tape → Writes symbols (.table m scoping entries) tape

namespace TapeSet

theorem mem_rename_iff {tapes : TapeSet} {how : Relabelling} {x : String} :
    x ∈ tapes.rename how.source how.target ↔ ∃ tape ∈ tapes, how.apply tape = x := by
  rw [rename, SortedSet.mem_map]; rfl

theorem mem_unionAll {sets : List TapeSet} {x : String} : x ∈ unionAll sets ↔ ∃ tapes ∈ sets, x ∈ tapes := by
  have key : ∀ (l : List TapeSet) (acc : TapeSet), x ∈ l.foldl (· ∪ ·) acc ↔ x ∈ acc ∨ ∃ tapes ∈ l, x ∈ tapes := by
    intro l
    induction l with
    | nil => simp
    | cons first rest ih => intro acc; simp [ih, or_assoc]
  simp [unionAll, key]

@[simp] theorem unionAll_singleton (tapes : TapeSet) : unionAll [tapes] = tapes :=
  SortedSet.ext fun x => by simp [mem_unionAll]

theorem mem_unionAll_map {α : Type} {tapesOf : α → TapeSet} {l : List α} {x : String} :
    x ∈ unionAll (l.map tapesOf) ↔ ∃ a ∈ l, x ∈ tapesOf a := by
  simp [mem_unionAll]

end TapeSet

namespace Grammar

variable {f f' : String → TapeSet} {g : Grammar} {x : String}

/-! ## Tapes by their members -/

@[simp] theorem tapesWith_embed (f : String → TapeSet) (m : Mark) (symbol : String) :
    (embed m symbol).tapesWith f = f symbol := rfl

@[simp] theorem tapesWith_combine (f : String → TapeSet) (m : Mark) (how : Combination) (parts : List Grammar) :
    (combine m how parts).tapesWith f = TapeSet.unionAll (parts.map (tapesWith f)) := fold_eq _ _

@[simp] theorem tapesWith_table (f : String → TapeSet) (m : Mark) (scoping : Scoping)
    (entries : List (String × Grammar)) :
    (table m scoping entries).tapesWith f = TapeSet.unionAll ((entries.map (·.2)).map (tapesWith f)) := fold_eq _ _

@[simp] theorem tapesWith_relabel (f : String → TapeSet) (m : Mark) (how : Relabelling) (body : Grammar) :
    (relabel m how body).tapesWith f = (body.tapesWith f).rename how.source how.target := by
  change (TapeSet.unionAll [body.tapesWith f]).rename how.source how.target = _
  rw [TapeSet.unionAll_singleton]

@[simp] theorem tapesWith_withMark (f : String → TapeSet) (new : Mark) (g : Grammar) :
    (g.withMark new).tapesWith f = g.tapesWith f := by
  cases g <;> rfl

/-- Children that are each changed without a change of tapes. -/
theorem tapesWith_mapChildren {change : Grammar → Grammar}
    (hembed : ∀ m symbol, g = embed m symbol → f symbol = f' symbol)
    (h : ∀ child ∈ g.children, (change child).tapesWith f = child.tapesWith f') :
    (g.mapChildren change).tapesWith f = g.tapesWith f' := by
  have hsets : g.children.map (fun child => (change child).tapesWith f) = g.children.map (tapesWith f') :=
    List.map_congr_left h
  cases g with
  | embed m symbol => exact hembed m symbol rfl
  | combine m how parts =>
    rw [mapChildren, tapesWith_combine, tapesWith_combine, List.map_map]
    exact congrArg _ hsets
  | relabel m how body =>
    rw [mapChildren, tapesWith_relabel, tapesWith_relabel, h body (List.mem_singleton_self body)]
  | table m scoping entries =>
    rw [mapChildren, tapesWith_table, tapesWith_table, List.map_map, List.map_map]
    rw [children, List.map_map] at hsets
    exact congrArg _ hsets
  | _ => rfl

/-- Only the symbols that a grammar embeds count for its tapes. -/
theorem tapesWith_congr (h : ∀ m symbol, embed m symbol ∈ g.nodes → f symbol = f' symbol) :
    g.tapesWith f = g.tapesWith f' := by
  induction g using inductChildren with
  | step g ih =>
    have hchildren : ∀ child ∈ g.children, (id child).tapesWith f = child.tapesWith f' := fun child hc =>
      ih child hc fun m symbol hs => h m symbol (mem_nodes_of_mem_children hc hs)
    have hself : ∀ m symbol, g = embed m symbol → f symbol = f' symbol := by
      rintro m symbol rfl
      exact h m symbol (self_mem_nodes _)
    rw [← tapesWith_mapChildren hself hchildren, mapChildren_id]

end Grammar

/-! ## Tables whose embeds go down in rank -/

/-- Every embed of a symbol of the table goes to one of lower rank. Ranks are of keys. -/
def SymbolTable.Descends (symbols : SymbolTable Grammar) (rank : String → Nat) : Prop :=
  ∀ a b, symbols.Embeds a b → symbols.contains b = true → rank b < rank (Symbol.key a)

section Descending

variable {symbols : SymbolTable Grammar} {rank : String → Nat}

theorem SymbolTable.Embeds.key_right {a b : String} (h : symbols.Embeds a b) : Symbol.key b = b := by
  obtain ⟨g, m, s, -, -, rfl⟩ := h
  exact Symbol.key_key s

theorem SymbolTable.Embeds.contains_left {a b : String} (h : symbols.Embeds a b) : symbols.contains a = true := by
  obtain ⟨g, m, s, hg, -, -⟩ := h
  exact contains_of_get? hg

theorem SymbolTable.Descends.lt_of_transGen (hd : symbols.Descends rank) {a b : String}
    (h : Relation.TransGen symbols.Embeds a b) (hb : symbols.contains b = true) : rank b < rank (Symbol.key a) := by
  induction h using Relation.TransGen.head_induction_on with
  | single h => exact hd _ _ h hb
  | head h htail ih =>
    obtain ⟨c, hc, -⟩ := Relation.TransGen.head'_iff.mp htail
    have := hd _ _ h hc.contains_left
    rw [h.key_right] at ih
    omega

/-- No symbol of such a table reaches itself through embeds. -/
theorem SymbolTable.Descends.acyclic (hd : symbols.Descends rank) (key : String) :
    ¬ Relation.TransGen symbols.Embeds key key := by
  intro h
  obtain ⟨c, hc, -⟩ := Relation.TransGen.head'_iff.mp h
  obtain ⟨d, -, hd'⟩ := Relation.TransGen.tail'_iff.mp h
  have := hd.lt_of_transGen h hc.contains_left
  rw [hd'.key_right] at this
  omega

namespace Grammar

variable {f : String → TapeSet}

theorem mem_tapesWith_of_writes (hdef : ∀ name g, symbols.get? name = some g → f name = g.tapesWith f) {g : Grammar}
    {tape : String} (h : g.Writes symbols tape) : tape ∈ g.tapesWith f := by
  induction h with
  | literal m tape text => exact SortedSet.mem_singleton.mpr rfl
  | embed m hg _ ih => rw [tapesWith_embed, hdef _ _ hg]; exact ih
  | combine m how hg _ ih => rw [tapesWith_combine, TapeSet.mem_unionAll_map]; exact ⟨_, hg, ih⟩
  | relabel m how _ ih => rw [tapesWith_relabel, TapeSet.mem_rename_iff]; exact ⟨_, ih, rfl⟩
  | table m scoping he _ ih => rw [tapesWith_table, TapeSet.mem_unionAll_map]; exact ⟨_, List.mem_map_of_mem he, ih⟩

/-- A grammar writes on what its tapes say if this is so of all symbols that it embeds. -/
theorem writes_of_mem_tapesWith {g : Grammar}
    (hsymbols : ∀ m symbol, embed m symbol ∈ g.nodes → ∀ tape ∈ f symbol, (embed m symbol).Writes symbols tape)
    {tape : String} (h : tape ∈ g.tapesWith f) : g.Writes symbols tape := by
  induction g generalizing tape with
  | epsilon m => exact absurd h (SortedSet.not_mem_empty _)
  | null m => exact absurd h (SortedSet.not_mem_empty _)
  | literal m t text =>
    rw [SortedSet.mem_singleton.mp h]
    exact .literal m t text
  | embed m symbol => exact hsymbols m symbol (self_mem_nodes _) tape h
  | combine m how parts ih =>
    rw [tapesWith_combine, TapeSet.mem_unionAll_map] at h
    obtain ⟨g, hg, hx⟩ := h
    exact .combine m how hg (ih g hg (fun m s hs => hsymbols m s (mem_nodes_combine.mpr (.inr ⟨g, hg, hs⟩))) hx)
  | relabel m how body ih =>
    rw [tapesWith_relabel, TapeSet.mem_rename_iff] at h
    obtain ⟨t, ht, rfl⟩ := h
    exact .relabel m how (ih (fun m s hs => hsymbols m s (mem_nodes_relabel.mpr (.inr hs))) ht)
  | table m scoping entries ih =>
    rw [tapesWith_table, List.map_map, TapeSet.mem_unionAll_map] at h
    obtain ⟨entry, he, hx⟩ := h
    exact .table m scoping he (ih entry he (fun m s hs => hsymbols m s (mem_nodes_table.mpr (.inr ⟨entry, he, hs⟩))) hx)

/-- What the tapes of a symbol say is so, by induction on its rank. -/
theorem writes_embed_of_mem (hd : symbols.Descends rank)
    (hdef : ∀ name g, symbols.get? name = some g → f name = g.tapesWith f)
    (hnone : ∀ name, symbols.get? name = none → f name = ∅) (m : Mark) (symbol : String) {tape : String}
    (h : tape ∈ f symbol) : (embed m symbol).Writes symbols tape := by
  induction hr : rank (Symbol.key symbol) using Nat.strongRecOn generalizing m symbol tape with
  | _ r ih =>
    cases hs : symbols.get? symbol with
    | none => rw [hnone symbol hs] at h; exact absurd h (SortedSet.not_mem_empty tape)
    | some d =>
      rw [hdef symbol d hs] at h
      refine .embed m hs (writes_of_mem_tapesWith (fun m' s' hmem tape' h' => ?_) h)
      by_cases hc : symbols.contains s' = true
      · have hlt := hd symbol (Symbol.key s') ⟨d, m', s', hs, hmem, rfl⟩ (by simpa using hc)
        exact ih _ (hr ▸ hlt) m' s' h' rfl
      · rw [hnone s' (by simpa [SymbolTable.contains_eq_isSome] using hc)] at h'
        exact absurd h' (SortedSet.not_mem_empty tape')

/-- Tape sets that give every symbol the tapes of its definition are those of the leaf walk, if embeds go down in
rank. -/
theorem mem_tapesWith_iff (hd : symbols.Descends rank)
    (hdef : ∀ name g, symbols.get? name = some g → f name = g.tapesWith f)
    (hnone : ∀ name, symbols.get? name = none → f name = ∅) {g : Grammar} {tape : String} :
    tape ∈ g.tapesWith f ↔ g.Writes symbols tape :=
  ⟨writes_of_mem_tapesWith fun m symbol _ _ h => writes_embed_of_mem hd hdef hnone m symbol h,
    mem_tapesWith_of_writes hdef⟩

end Grammar

end Descending

end SheetGrammar
