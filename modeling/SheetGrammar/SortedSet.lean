/-!
Finite sets kept in increasing order, so that two sets with the same members are the same value. Tape sets and literal
sets are of this kind: what is printed of them follows the order, and what is computed with them follows membership.

- `mem_insert`, `mem_union`, `mem_ofList`: the operations by their members.
- `ext`: sets with the same members are equal.
-/

namespace SheetGrammar

structure SortedSet (α : Type) [LT α] where
  toList : List α
  sorted : toList.Pairwise (· < ·)

namespace SortedSet

variable {α : Type} [LT α]

instance [DecidableEq α] : DecidableEq (SortedSet α) := fun a b =>
  if h : a.toList = b.toList then isTrue (by cases a; cases b; cases h; rfl)
  else isFalse (fun e => h (e ▸ rfl))

instance : Membership α (SortedSet α) := ⟨fun s a => a ∈ s.toList⟩

instance [DecidableEq α] (a : α) (s : SortedSet α) : Decidable (a ∈ s) :=
  inferInstanceAs (Decidable (a ∈ s.toList))

theorem mem_def {a : α} {s : SortedSet α} : a ∈ s ↔ a ∈ s.toList := Iff.rfl

def empty : SortedSet α := ⟨[], .nil⟩

instance : Inhabited (SortedSet α) := ⟨empty⟩

instance : EmptyCollection (SortedSet α) := ⟨empty⟩

@[simp] theorem not_mem_empty (a : α) : a ∉ (∅ : SortedSet α) := by
  intro h
  cases h

def isEmpty (s : SortedSet α) : Bool := s.toList.isEmpty

def size (s : SortedSet α) : Nat := s.toList.length

variable [DecidableLT α]

/-- Puts an element at its place in an increasing list, unless it is there already. -/
def place (a : α) : List α → List α
  | [] => [a]
  | b :: rest => if a < b then a :: b :: rest else if b < a then b :: place a rest else b :: rest

theorem mem_of_mem_place {a x : α} {l : List α} (h : x ∈ place a l) : x = a ∨ x ∈ l := by
  induction l with
  | nil => simpa [place] using h
  | cons b rest ih =>
    simp only [place] at h
    split at h
    · simpa using h
    · split at h
      · rcases List.mem_cons.1 h with rfl | h
        · exact .inr (List.mem_cons_self ..)
        · rcases ih h with rfl | h
          · exact .inl rfl
          · exact .inr (List.mem_cons_of_mem _ h)
      · exact .inr h

theorem mem_place_of_mem {a x : α} {l : List α} (h : x ∈ l) : x ∈ place a l := by
  induction l with
  | nil => cases h
  | cons b rest ih =>
    simp only [place]
    split
    · exact List.mem_cons_of_mem _ h
    · split
      · rcases List.mem_cons.1 h with rfl | h
        · exact List.mem_cons_self ..
        · exact List.mem_cons_of_mem _ (ih h)
      · exact h

variable [Trans (α := α) (· < ·) (· < ·) (· < ·)]

theorem pairwise_place (a : α) {l : List α} (h : l.Pairwise (· < ·)) : (place a l).Pairwise (· < ·) := by
  induction l with
  | nil => simp [place]
  | cons b rest ih =>
    obtain ⟨hb, hrest⟩ := List.pairwise_cons.1 h
    simp only [place]
    split
    · next hab =>
      refine List.pairwise_cons.2 ⟨fun x hx => ?_, h⟩
      rcases List.mem_cons.1 hx with rfl | hx
      · exact hab
      · exact Trans.trans hab (hb x hx)
    · split
      · next hba =>
        refine List.pairwise_cons.2 ⟨fun x hx => ?_, ih hrest⟩
        rcases mem_of_mem_place hx with rfl | hx
        · exact hba
        · exact hb x hx
      · exact h

def insert (a : α) (s : SortedSet α) : SortedSet α := ⟨place a s.toList, pairwise_place a s.sorted⟩

def ofList (l : List α) : SortedSet α := l.foldr insert ∅

def singleton (a : α) : SortedSet α := insert a ∅

def union (s t : SortedSet α) : SortedSet α := t.toList.foldr insert s

instance : Union (SortedSet α) := ⟨union⟩

def map (f : α → α) (s : SortedSet α) : SortedSet α := ofList (s.toList.map f)

section Membership

variable [Std.Trichotomous (α := α) (· < ·)]

omit [Trans (α := α) (· < ·) (· < ·) (· < ·)] in
theorem mem_place_self (a : α) (l : List α) : a ∈ place a l := by
  induction l with
  | nil => simp [place]
  | cons b rest ih =>
    simp only [place]
    split
    · exact List.mem_cons_self ..
    · next hab =>
      split
      · exact List.mem_cons_of_mem _ ih
      · next hba => exact Std.Trichotomous.trichotomous (r := (· < ·)) a b hab hba ▸ List.mem_cons_self ..

@[simp] theorem mem_insert {a x : α} {s : SortedSet α} : x ∈ s.insert a ↔ x = a ∨ x ∈ s := by
  constructor
  · exact mem_of_mem_place
  · rintro (rfl | h)
    · exact mem_place_self x s.toList
    · exact mem_place_of_mem h

@[simp] theorem mem_ofList {x : α} {l : List α} : x ∈ ofList l ↔ x ∈ l := by
  induction l with
  | nil => simp [ofList]
  | cons a rest ih =>
    have step : ofList (a :: rest) = (ofList rest).insert a := rfl
    rw [step, mem_insert, ih, List.mem_cons]

@[simp] theorem mem_singleton {a x : α} : x ∈ singleton a ↔ x = a := by
  simp [singleton]

@[simp] theorem mem_union {x : α} {s t : SortedSet α} : x ∈ s ∪ t ↔ x ∈ s ∨ x ∈ t := by
  have key : ∀ l : List α, x ∈ l.foldr insert s ↔ x ∈ s ∨ x ∈ l := by
    intro l
    induction l with
    | nil => simp
    | cons a rest ih => simp only [List.foldr_cons, mem_insert, ih, List.mem_cons, or_left_comm]
  exact key t.toList

@[simp] theorem mem_map {x : α} {f : α → α} {s : SortedSet α} : x ∈ s.map f ↔ ∃ a ∈ s, f a = x := by
  rw [map, mem_ofList, List.mem_map]
  rfl

end Membership

omit [DecidableLT α] in
/-- Two increasing lists with the same members are equal. -/
theorem eq_of_mem_iff [Std.Irrefl (α := α) (· < ·)] {l m : List α} (hl : l.Pairwise (· < ·)) (hm : m.Pairwise (· < ·))
    (h : ∀ x, x ∈ l ↔ x ∈ m) : l = m := by
  have asymm : ∀ {x y : α}, x < y → ¬ y < x := fun hxy hyx => Std.Irrefl.irrefl (r := (· < ·)) _ (Trans.trans hxy hyx)
  induction l generalizing m with
  | nil =>
    cases m with
    | nil => rfl
    | cons b _ => exact absurd ((h b).2 (List.mem_cons_self ..)) List.not_mem_nil
  | cons a l ih =>
    cases m with
    | nil => exact absurd ((h a).1 (List.mem_cons_self ..)) List.not_mem_nil
    | cons b m =>
      obtain ⟨ha, hl'⟩ := List.pairwise_cons.1 hl
      obtain ⟨hb, hm'⟩ := List.pairwise_cons.1 hm
      have hab : a = b := by
        rcases List.mem_cons.1 ((h a).1 (List.mem_cons_self ..)) with e | hmem
        · exact e
        · rcases List.mem_cons.1 ((h b).2 (List.mem_cons_self ..)) with e | hmem'
          · exact e.symm
          · exact absurd (hb a hmem) (asymm (ha b hmem'))
      subst hab
      congr 1
      refine ih hl' hm' fun x => ⟨fun hx => ?_, fun hx => ?_⟩
      · rcases List.mem_cons.1 ((h x).1 (List.mem_cons_of_mem _ hx)) with rfl | hx'
        · exact absurd (ha x hx) (Std.Irrefl.irrefl (r := (· < ·)) x)
        · exact hx'
      · rcases List.mem_cons.1 ((h x).2 (List.mem_cons_of_mem _ hx)) with rfl | hx'
        · exact absurd (hb x hx) (Std.Irrefl.irrefl (r := (· < ·)) x)
        · exact hx'

omit [DecidableLT α] in
theorem ext [Std.Irrefl (α := α) (· < ·)] {s t : SortedSet α} (h : ∀ x, x ∈ s ↔ x ∈ t) : s = t := by
  cases s with
  | mk l hl =>
    cases t with
    | mk m hm =>
      have : l = m := eq_of_mem_iff hl hm h
      subst this
      rfl

end SortedSet

end SheetGrammar
