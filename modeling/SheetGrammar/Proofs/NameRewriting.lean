import SheetGrammar.Grammar.Flatten
import SheetGrammar.Proofs.LeafWalk

/-!
What the rewriting of embeds does to a grammar: its tapes are those of the names that the embeds now have, an embed
that is left is of such a name, and no collection comes or goes.
-/

namespace SheetGrammar.Grammar

variable {refer : String → Option String} {g : Grammar}

theorem resolve_eq (refer : String → Option String) (g : Grammar) :
    g.resolve refer = resolveEmbed refer (g.mapChildren (resolve refer)) := rewrite_eq _ g

theorem resolve_embed (m : Mark) (symbol : String) :
    (embed m symbol).resolve refer =
      match refer symbol with
      | some name => embed (.ofPos m.pos) name
      | none => null (.ofPos m.pos) := resolve_eq refer _

theorem resolve_combine (m : Mark) (how : Combination) (parts : List Grammar) :
    (combine m how parts).resolve refer = combine (.ofPos m.pos) how (parts.map (resolve refer)) := resolve_eq refer _

theorem resolve_relabel (m : Mark) (how : Relabelling) (body : Grammar) :
    (relabel m how body).resolve refer = relabel (.ofPos m.pos) how (body.resolve refer) := resolve_eq refer _

theorem resolve_table (m : Mark) (scoping : Scoping) (entries : List (String × Grammar)) :
    (table m scoping entries).resolve refer =
      table (.ofPos m.pos) scoping (entries.map fun entry => (entry.1, entry.2.resolve refer)) := resolve_eq refer _

@[simp] theorem children_resolveEmbed (refer : String → Option String) (g : Grammar) :
    (resolveEmbed refer g).children = g.children := by
  cases g with
  | embed m symbol => rw [resolveEmbed]; split <;> rfl
  | _ => rfl

theorem nodes_resolve (refer : String → Option String) (g : Grammar) :
    (g.resolve refer).nodes = g.nodes.map (resolve refer) :=
  nodes_rewrite fun n _ => children_rewrite (children_resolveEmbed refer) n

theorem pos_resolve (refer : String → Option String) (g : Grammar) : (g.resolve refer).pos = g.pos := by
  cases g with
  | embed m symbol => rw [resolve_embed]; split <;> rfl
  | _ => rfl

theorem unresolved_eq (refer : String → Option String) (g : Grammar) :
    g.unresolved refer = match g with
      | embed m symbol => if (refer symbol).isSome then [] else [⟨.unresolvedSymbol symbol, m.pos⟩]
      | g => g.children.flatMap (unresolved refer) := by
  rw [unresolved, fold_eq]
  cases g <;> rfl

theorem unresolved_embed (m : Mark) (symbol : String) :
    (embed m symbol).unresolved refer =
      if (refer symbol).isSome then [] else [⟨.unresolvedSymbol symbol, m.pos⟩] := unresolved_eq refer _

theorem unresolved_combine (m : Mark) (how : Combination) (parts : List Grammar) :
    (combine m how parts).unresolved refer = parts.flatMap (unresolved refer) := unresolved_eq refer _

theorem unresolved_relabel (m : Mark) (how : Relabelling) (body : Grammar) :
    (relabel m how body).unresolved refer = body.unresolved refer :=
  (unresolved_eq refer _).trans (List.flatMap_singleton ..)

theorem unresolved_table (m : Mark) (scoping : Scoping) (entries : List (String × Grammar)) :
    (table m scoping entries).unresolved refer = entries.flatMap fun entry => entry.2.unresolved refer :=
  (unresolved_eq refer _).trans (List.flatMap_map ..)

/-- An embed that refers to nothing is reported where it stands. -/
theorem mem_unresolved {message : Message} : message ∈ g.unresolved refer ↔
    ∃ m symbol, embed m symbol ∈ g.nodes ∧ refer symbol = none ∧ message = ⟨.unresolvedSymbol symbol, m.pos⟩ := by
  induction g using inductChildren with
  | step g ih =>
    rw [unresolved_eq]
    split
    · next m symbol =>
      constructor
      · intro h
        split at h
        · cases h
        · next hr => exact ⟨m, symbol, self_mem_nodes _, by simpa using hr, List.mem_singleton.mp h⟩
      · rintro ⟨m', symbol', hn, hr, rfl⟩
        cases List.mem_singleton.mp hn
        simp [hr]
    · next hplain =>
      rw [List.mem_flatMap]
      constructor
      · rintro ⟨child, hc, h⟩
        obtain ⟨m, symbol, hn, hr, hm⟩ := (ih child hc).mp h
        exact ⟨m, symbol, mem_nodes_of_mem_children hc hn, hr, hm⟩
      · rintro ⟨m, symbol, hn, hr, hm⟩
        rcases mem_nodes_iff.mp hn with rfl | ⟨child, hc, hn⟩
        · exact absurd rfl (hplain m symbol)
        · exact ⟨child, hc, (ih child hc).mpr ⟨m, symbol, hn, hr, hm⟩⟩

theorem tapesWith_resolve (f : String → TapeSet) (g : Grammar) :
    (g.resolve refer).tapesWith f = g.tapesWith fun symbol => (refer symbol).elim ∅ f := by
  induction g using inductChildren with
  | step g ih =>
    rw [resolve_eq]
    cases g with
    | embed m symbol =>
      rw [mapChildren, resolveEmbed, tapesWith_embed]
      split
      · next hr => rw [hr]; rfl
      · next hr => rw [hr]; rfl
    | _ => exact (tapesWith_withMark ..).trans (tapesWith_mapChildren (fun _ _ h => by cases h) ih)

theorem embed_mem_nodes_resolve {m : Mark} {name : String} (h : embed m name ∈ (g.resolve refer).nodes) :
    ∃ m' symbol, embed m' symbol ∈ g.nodes ∧ refer symbol = some name := by
  rw [nodes_resolve] at h
  obtain ⟨original, ho, he⟩ := List.mem_map.mp h
  cases original with
  | embed m' symbol =>
    rw [resolve_eq, mapChildren, resolveEmbed] at he
    split at he
    · next hr =>
      cases he
      exact ⟨m', symbol, ho, hr⟩
    · cases he
  | _ => cases he

@[simp] theorem hasNested_resolve (refer : String → Option String) (g : Grammar) :
    (g.resolve refer).hasNested = g.hasNested := by
  refine hasNested_rewrite (children_resolveEmbed refer) (fun g => ?_) g
  cases g with
  | embed m symbol => rw [resolveEmbed]; split <;> rfl
  | table m scoping entries => cases scoping <;> rfl
  | _ => rfl

end SheetGrammar.Grammar
