import SheetGrammar.Proofs.EmbedWalk
import SheetGrammar.Proofs.LeafWalk

/-!
What the settling of a table leaves. The walk keeps two things true at every move (`Walk.Faithful`). Each settled
symbol was settled right given those settled before it (`SettledWell`): a recursive one has no tapes, any other has the
tapes of its definition, and all symbols that it embeds were settled earlier. And each visit has dealt with its targets
up to those pending, by settling them, by finding them unknown or in a cycle with itself, or by being in the middle of
them.

The depth-first argument is in the second: a symbol that is settled without being recursive cannot have met a symbol in
progress, for it would have been a member of the cycle closed there. So embeds of symbols that are not recursive go
from later to earlier settled symbols, whatever cycles the table has.

- `Settles`: what holds of the symbols once all are settled.
- `settleTable_settles`: it holds after every settling without a fault.
-/

namespace SheetGrammar

namespace Inference

def tapesIn (settled : List (String × TapeSet)) (symbol : String) : TapeSet :=
  (settled.lookup (Symbol.key symbol)).getD ∅

theorem lookup_eq_none {settled : List (String × TapeSet)} {key : String} (h : key ∉ settled.map (·.1)) :
    settled.lookup key = none := by
  rw [List.lookup_eq_none_iff]
  intro entry he
  have : key ≠ entry.1 := fun e => h (e ▸ List.mem_map.mpr ⟨entry, he, rfl⟩)
  simpa using this

theorem tapesIn_of_notMem {settled : List (String × TapeSet)} {symbol : String}
    (h : Symbol.key symbol ∉ settled.map (·.1)) : tapesIn settled symbol = ∅ := by
  rw [tapesIn, lookup_eq_none h]; rfl

structure SettledWell (symbols : SymbolTable Grammar) (recursive : List String) (before : List (String × TapeSet))
    (key : String) (tapes : TapeSet) : Prop where
  canonical : Symbol.key key = key
  new : key ∉ before.map (·.1)
  defined : ∃ g, symbols.get? key = some g ∧ g.hasNested = false ∧
    (key ∈ recursive → tapes = ∅) ∧
    (key ∉ recursive → tapes = g.tapesWith (tapesIn before) ∧
      ∀ target ∈ g.embeds, symbols.contains target = true → target ∈ before.map (·.1))

def Ordered (symbols : SymbolTable Grammar) (recursive : List String) : List (String × TapeSet) → Prop
  | [] => True
  | (key, tapes) :: before => SettledWell symbols recursive before key tapes ∧ Ordered symbols recursive before

variable {symbols : SymbolTable Grammar} {recursive recursive' : List String}

theorem Ordered.of_agree {settled : List (String × TapeSet)} (h : Ordered symbols recursive settled)
    (ha : ∀ key ∈ settled.map (·.1), key ∈ recursive' ↔ key ∈ recursive) : Ordered symbols recursive' settled := by
  induction settled with
  | nil => trivial
  | cons entry before ih =>
    obtain ⟨hkey, hbefore⟩ := List.forall_mem_cons.mp ha
    obtain ⟨⟨hc, hn, g, hg, hflat, hr, hd⟩, ho⟩ := h
    exact ⟨⟨hc, hn, g, hg, hflat, fun h => hr (hkey.mp h), fun h => hd fun h' => h (hkey.mpr h')⟩, ih ho hbefore⟩

theorem Ordered.nodup {settled : List (String × TapeSet)} (h : Ordered symbols recursive settled) :
    (settled.map (·.1)).Nodup := by
  induction settled with
  | nil => exact List.nodup_nil
  | cons entry before ih => exact List.nodup_cons.mpr ⟨h.1.new, ih h.2⟩

/-- What was settled before a symbol is ordered too. -/
theorem Ordered.split {after before : List (String × TapeSet)} {key : String} {tapes : TapeSet}
    (h : Ordered symbols recursive (after ++ (key, tapes) :: before)) :
      SettledWell symbols recursive before key tapes := by
  induction after with
  | nil => exact h.1
  | cons entry after ih => exact ih h.2

theorem Ordered.exists_split {settled : List (String × TapeSet)} (h : Ordered symbols recursive settled) {key : String}
    (hk : key ∈ settled.map (·.1)) :
    ∃ after tapes before, settled = after ++ (key, tapes) :: before ∧ key ∉ after.map (·.1) ∧
      SettledWell symbols recursive before key tapes := by
  obtain ⟨⟨k, tapes⟩, hmem, rfl⟩ := List.mem_map.mp hk
  obtain ⟨after, before, rfl⟩ := List.append_of_mem hmem
  have hn := h.nodup
  rw [List.map_append, List.map_cons] at hn
  refine ⟨after, tapes, before, rfl, fun hm => ?_, h.split⟩
  exact (List.nodup_append.mp hn).2.2 _ hm _ (List.mem_cons_self ..) rfl

/-- All settled symbols are symbols of the table. -/
theorem Ordered.contains {settled : List (String × TapeSet)} (h : Ordered symbols recursive settled) {key : String}
    (hk : key ∈ settled.map (·.1)) : symbols.contains key = true := by
  obtain ⟨_, _, _, _, _, hw⟩ := h.exists_split hk
  obtain ⟨g, hg, -⟩ := hw.defined
  exact SymbolTable.contains_of_get? hg

/-- How late a symbol was settled: one more than the number of those before it. -/
def rankIn (settled : List (String × TapeSet)) (key : String) : Nat := (settled.dropWhile (·.1 ≠ key)).length

theorem rankIn_split {after before : List (String × TapeSet)} {key : String} {tapes : TapeSet}
    (h : key ∉ after.map (·.1)) : rankIn (after ++ (key, tapes) :: before) key = before.length + 1 := by
  rw [rankIn, List.dropWhile_append_of_pos]
  · simp
  · intro entry he
    have : entry.1 ≠ key := fun e => h (e ▸ List.mem_map.mpr ⟨entry, he, rfl⟩)
    simpa using this

theorem Ordered.rankIn_lt {after before : List (String × TapeSet)} {key target : String} {tapes : TapeSet}
    (h : Ordered symbols recursive (after ++ (key, tapes) :: before)) (ha : key ∉ after.map (·.1))
    (ht : target ∈ before.map (·.1)) :
    rankIn (after ++ (key, tapes) :: before) target < rankIn (after ++ (key, tapes) :: before) key := by
  obtain ⟨entry, hmem, rfl⟩ := List.mem_map.mp ht
  obtain ⟨between, rest, rfl⟩ := List.append_of_mem hmem
  have hn := h.nodup
  have hnew : entry.1 ∉ (after ++ (key, tapes) :: between).map (·.1) := by
    intro hm
    have e : after ++ (key, tapes) :: (between ++ entry :: rest) =
      (after ++ (key, tapes) :: between) ++ entry :: rest := by simp
    rw [e, List.map_append, List.map_cons] at hn
    exact (List.nodup_append.mp hn).2.2 _ hm _ (List.mem_cons_self ..) rfl
  have hrank : rankIn ((after ++ (key, tapes) :: between) ++ entry :: rest) entry.1 = rest.length + 1 :=
    rankIn_split hnew
  rw [List.append_assoc, List.cons_append] at hrank
  rw [rankIn_split ha, hrank, List.length_append, List.length_cons]
  omega

/-- What was found of an earlier symbol is still found. -/
theorem Ordered.tapesIn_eq {after before : List (String × TapeSet)} {key symbol : String} {tapes : TapeSet}
    (h : Ordered symbols recursive (after ++ (key, tapes) :: before)) (hs : Symbol.key symbol ∈ before.map (·.1)) :
    tapesIn before symbol = tapesIn (after ++ (key, tapes) :: before) symbol := by
  have hn := h.nodup
  have e : after ++ (key, tapes) :: before = (after ++ [(key, tapes)]) ++ before := by simp
  rw [e, List.map_append] at hn
  have hnot : Symbol.key symbol ∉ (after ++ [(key, tapes)]).map (·.1) :=
    fun hm => (List.nodup_append.mp hn).2.2 _ hm _ hs rfl
  rw [tapesIn, tapesIn, e, List.lookup_append, lookup_eq_none hnot]
  rfl

/-- Where a settled symbol stands among the others, and what it was settled with. -/
theorem Ordered.exists_settledWell {settled : List (String × TapeSet)} (h : Ordered symbols recursive settled)
    {name : String} {g : Grammar} (hg : symbols.get? name = some g) (hk : Symbol.key name ∈ settled.map (·.1)) :
    ∃ after tapes before, settled = after ++ (Symbol.key name, tapes) :: before ∧ Symbol.key name ∉ after.map (·.1) ∧
      tapesIn settled name = tapes ∧ g.hasNested = false ∧ (Symbol.key name ∈ recursive → tapes = ∅) ∧
      (Symbol.key name ∉ recursive → tapes = g.tapesWith (tapesIn before) ∧
        ∀ target ∈ g.embeds, symbols.contains target = true → target ∈ before.map (·.1)) := by
  obtain ⟨after, tapes, before, he, hn, hw⟩ := h.exists_split hk
  obtain ⟨g', hg', hflat, hrec, hdef⟩ := hw.defined
  rw [SymbolTable.get?_key, hg] at hg'
  cases hg'
  refine ⟨after, tapes, before, he, hn, ?_, hflat, hrec, hdef⟩
  rw [tapesIn, he, List.lookup_append, lookup_eq_none hn]
  simp

/-- A symbol that is not recursive keeps the tapes of its definition when more is settled. -/
theorem Ordered.tapesWith_eq {after before : List (String × TapeSet)} {key : String} {tapes : TapeSet} {g : Grammar}
    (h : Ordered symbols recursive (after ++ (key, tapes) :: before)) (hflat : g.hasNested = false)
    (hembeds : ∀ target ∈ g.embeds, symbols.contains target = true → target ∈ before.map (·.1)) :
    g.tapesWith (tapesIn before) = g.tapesWith (tapesIn (after ++ (key, tapes) :: before)) := by
  refine Grammar.tapesWith_congr fun m symbol hmem => ?_
  by_cases hc : symbols.contains symbol = true
  · have htarget := (Grammar.mem_embeds_iff hflat).mpr ⟨m, symbol, hmem, rfl⟩
    exact h.tapesIn_eq (hembeds _ htarget (by simpa using hc))
  · -- an unknown symbol is settled nowhere
    have hall : Symbol.key symbol ∉ (after ++ (key, tapes) :: before).map (·.1) :=
      fun hm => hc (by simpa using h.contains hm)
    have hbefore : Symbol.key symbol ∉ before.map (·.1) := fun hm => hall (by simp [hm])
    rw [tapesIn_of_notMem hall, tapesIn_of_notMem hbefore]

end Inference

/-! ## What a visit has dealt with -/

/-- A target of the symbol `key` needs no more visit: it is settled, unknown, on a cycle with `key`, or being visited
inside it. -/
def Handled (symbols : SymbolTable Grammar) (known : Inference) (inner : List String) (key target : String) : Prop :=
  target ∈ known.settledKeys ∨ symbols.contains target = false ∨ key ∈ known.recursive ∨ target ∈ inner

/-- All visits have dealt with their targets up to those pending; `inner` are the symbols visited inside the first. -/
def Looked (symbols : SymbolTable Grammar) (known : Inference) : List String → List Visit → Prop
  | _, [] => True
  | inner, v :: outer =>
    (∀ target ∈ symbols.targets v.key, target ∈ v.pending ∨ Handled symbols known inner v.key target) ∧
      Looked symbols known (v.key :: inner) outer

section Looked

variable {symbols : SymbolTable Grammar} {known known' : Inference} {inner inner' : List String}

theorem Handled.mono (hs : ∀ key ∈ known.settledKeys, key ∈ known'.settledKeys)
    (hr : ∀ key ∈ known.recursive, key ∈ known'.recursive) (hi : ∀ key ∈ inner, key ∈ known'.settledKeys ∨ key ∈ inner')
    {key target : String} (h : Handled symbols known inner key target) : Handled symbols known' inner' key target := by
  rcases h with h | h | h | h
  · exact .inl (hs _ h)
  · exact .inr (.inl h)
  · exact .inr (.inr (.inl (hr _ h)))
  · rcases hi _ h with h | h
    · exact .inl h
    · exact .inr (.inr (.inr h))

theorem Looked.mono (hs : ∀ key ∈ known.settledKeys, key ∈ known'.settledKeys)
    (hr : ∀ key ∈ known.recursive, key ∈ known'.recursive) (hi : ∀ key ∈ inner, key ∈ known'.settledKeys ∨ key ∈ inner')
    {visits : List Visit} (h : Looked symbols known inner visits) : Looked symbols known' inner' visits := by
  induction visits generalizing inner inner' with
  | nil => trivial
  | cons v outer ih =>
    refine ⟨fun target ht => (h.1 target ht).imp id (Handled.mono hs hr hi), ih (fun key hk => ?_) h.2⟩
    rcases List.mem_cons.mp hk with rfl | hk
    · exact .inr (List.mem_cons_self ..)
    · exact (hi key hk).imp id (List.mem_cons_of_mem _)

/-- A target that is dealt with is no longer among those pending. -/
theorem mem_or_of_dealt {P : String → Prop} {t target : String} {pending : List String}
    (h : t ∈ target :: pending ∨ P t) (htarget : P target) : t ∈ pending ∨ P t := by
  rcases h with h | h
  · rcases List.mem_cons.mp h with rfl | h
    · exact .inr htarget
    · exact .inl h
  · exact .inr h

end Looked

structure Walk.Faithful (symbols : SymbolTable Grammar) (walk : Walk) : Prop where
  aligned : walk.Aligned symbols
  ordered : Inference.Ordered symbols walk.known.recursive walk.known.settled
  looked : Looked symbols walk.known [] walk.visits
  seen : ∀ key ∈ walk.known.recursive, key ∈ walk.known.settledKeys ∨ key ∈ walk.keys

namespace Walk

variable {symbols : SymbolTable Grammar} {walk next : Walk} {key : String}

/-- The members of a cycle are being visited. -/
theorem Aligned.mem_keys_of_mem_members (ha : walk.Aligned symbols) {target : String}
    (h : key ∈ walk.known.members target) : key ∈ walk.keys := by
  rw [← ha.mem_inProgress]
  exact (List.dropWhile_suffix _).subset h

/-- The innermost symbol is a member of every cycle. -/
theorem Aligned.head_mem_members (ha : walk.Aligned symbols) {target : String} {v : Visit} {outer : List Visit}
    (hv : walk.visits = v :: outer) (h : target ∈ walk.known.inProgress) : v.key ∈ walk.known.members target := by
  obtain ⟨inner, outer', hk⟩ := ha.exists_inner h
  rw [ha.members_eq hk]
  have hcons : walk.keys = v.key :: outer.map Visit.key := by rw [keys, hv]; rfl
  rw [hcons] at hk
  cases inner with
  | nil => cases hk; exact List.mem_cons_self ..
  | cons k inner =>
    obtain ⟨rfl, -⟩ := List.cons.inj hk
    simp

/-- A symbol found to be recursive stays so. -/
theorem Moves.recursive_subset (h : walk.Moves symbols next) (hk : key ∈ walk.known.recursive) :
    key ∈ next.known.recursive := by
  cases h with
  | pass _ => exact hk
  | close _ _ => exact Inference.mem_recursive_closeCycle.mpr (.inr hk)
  | enter _ _ _ => simpa using hk
  | settle _ _ => exact hk

/-- Only symbols that are visited are found to be recursive. -/
theorem Moves.recursive_or_visited (ha : walk.Aligned symbols) (h : walk.Moves symbols next)
    (hk : key ∈ next.known.recursive) : key ∈ walk.known.recursive ∨ key ∈ walk.keys := by
  cases h with
  | pass _ => exact .inl hk
  | close _ _ =>
    rcases Inference.mem_recursive_closeCycle.mp hk with hm | hm
    · exact .inr (ha.mem_keys_of_mem_members hm)
    · exact .inl hm
  | enter _ _ _ => exact .inl (by simpa using hk)
  | settle _ _ => exact .inl hk

/-- The verdict on a settled symbol stays. -/
theorem Moves.mem_recursive_iff (ha : walk.Aligned symbols) (h : walk.Moves symbols next)
    (hs : key ∈ walk.known.settledKeys) : key ∈ next.known.recursive ↔ key ∈ walk.known.recursive := by
  constructor
  · intro hk
    exact (h.recursive_or_visited ha hk).resolve_right fun hv => ha.unsettled key hv hs
  · exact h.recursive_subset

theorem Faithful.settledWell (hf : walk.Faithful symbols) {outer : List Visit} {g : Grammar}
    (hv : walk.visits = ⟨key, []⟩ :: outer) (hg : symbols.get? key = some g) (hflat : g.hasNested = false) :
    Inference.SettledWell symbols walk.known.recursive walk.known.settled key
      (if key ∈ walk.known.recursive then ∅ else g.tapesWith walk.known.tapesOf) := by
  have hmem : key ∈ walk.keys := by rw [keys, hv]; exact List.mem_cons_self ..
  refine ⟨hf.aligned.canonical key hmem, hf.aligned.unsettled key hmem, g, hg, hflat, fun h => if_pos h, fun h => ?_⟩
  refine ⟨if_neg h, fun target ht hc => ?_⟩
  have hlooked := hf.looked
  rw [hv] at hlooked
  -- nothing is pending and nothing is visited inside
  rcases hlooked.1 target (by rw [SymbolTable.targets_of_get? hg]; exact ht) with h' | h' | h' | h' | h'
  · cases h'
  · exact h'
  · rw [hc] at h'; cases h'
  · exact absurd h' h
  · cases h'

theorem Moves.ordered (hf : walk.Faithful symbols) (h : walk.Moves symbols next) :
    Inference.Ordered symbols next.known.recursive next.known.settled := by
  have hverdict : ∀ k ∈ walk.known.settledKeys, k ∈ next.known.recursive ↔ k ∈ walk.known.recursive := fun k hk =>
    h.mem_recursive_iff hf.aligned hk
  cases h with
  | pass _ => exact hf.ordered
  | @close known key target pending outer messages _ _ =>
    show Inference.Ordered symbols _ (known.closeCycle symbols target).1.settled
    rw [Inference.settled_closeCycle]
    exact hf.ordered.of_agree hverdict
  | enter _ _ _ => simpa using hf.ordered
  | settle hg hflat => exact ⟨hf.settledWell rfl hg hflat, hf.ordered⟩

theorem Moves.looked (hf : walk.Faithful symbols) (h : walk.Moves symbols next) :
    Looked symbols next.known [] next.visits := by
  have hset : ∀ k ∈ walk.known.settledKeys, k ∈ next.known.settledKeys := fun k hk => h.settledKeys_subset hk
  have hrec : ∀ k ∈ walk.known.recursive, k ∈ next.known.recursive := fun k hk => h.recursive_subset hk
  have hl := hf.looked
  cases h with
  | pass hpass =>
    refine ⟨fun t ht => mem_or_of_dealt (hl.1 t ht) ?_, hl.2⟩
    exact hpass.elim .inl fun h => .inr (.inl h.2)
  | @close known key target pending outer messages _ hprog =>
    -- the innermost symbol is on the cycle, and so done with all of its targets
    have hkey : key ∈ (known.closeCycle symbols target).1.recursive :=
      Inference.mem_recursive_closeCycle.mpr (.inl (hf.aligned.head_mem_members rfl hprog))
    exact ⟨fun t _ => .inr (.inr (.inr (.inl hkey))), hl.2.mono hset hrec fun k hk => .inr hk⟩
  | @enter known key target pending outer messages _ _ _ =>
    refine ⟨fun t ht => .inl ht, fun t ht => ?_, hl.2.mono hset hrec fun k hk => .inr ?_⟩
    · refine mem_or_of_dealt ((hl.1 t ht).imp id (Handled.mono hset hrec fun k hk => ?_))
        (.inr (.inr (.inr (List.mem_cons_self ..))))
      cases hk
    · rw [List.mem_singleton.mp hk]
      exact List.mem_cons_self ..
  | settle _ _ =>
    refine hl.2.mono hset hrec fun k hk => .inl ?_
    rw [List.mem_singleton.mp hk]
    exact List.mem_cons_self ..

theorem Moves.faithful (hf : walk.Faithful symbols) (h : walk.Moves symbols next) : next.Faithful symbols := by
  refine ⟨h.aligned hf.aligned, h.ordered hf, h.looked hf, ?_⟩
  intro key hk
  have hseen : key ∈ walk.known.settledKeys ∨ key ∈ walk.keys := by
    rcases h.recursive_or_visited hf.aligned hk with hr | hv
    · exact hf.seen key hr
    · exact .inr hv
  rcases hseen with hs | hv
  · exact .inl (h.settledKeys_subset hs)
  · exact (h.mem_keys_or_settled hv).symm

end Walk

namespace Progress

variable {symbols : SymbolTable Grammar} {p : Progress}

theorem Reached.faithful (h : Reached symbols p) : p.walk.Faithful symbols := by
  induction h with
  | refl =>
    refine ⟨Reached.aligned .refl, trivial, trivial, ?_⟩
    intro key hk
    cases hk
  | @tail p q hp hm ih =>
    cases hm with
    | walk hw => exact hw.faithful ih
    | @start name names reported messages known hs hc =>
      have ha := Reached.aligned (.tail hp (.start hs hc))
      refine ⟨ha, by simpa [Walk.begun] using ih.ordered, ⟨fun t ht => .inl ht, trivial⟩, fun k hk => ?_⟩
      rcases ih.seen k (by simpa [Walk.begun] using hk) with h | h
      · exact .inl (by simpa [Walk.begun] using h)
      · cases h
    | skip _ => exact ih

/-- No name is lost: each is still to come, being visited or settled. -/
theorem Reached.names_accounted (h : Reached symbols p) :
    ∀ name ∈ symbols.names, name ∈ p.names ∨ p.walk.Seen (Symbol.key name) := by
  induction h with
  | refl => exact fun name hn => .inl hn
  | @tail p q hp hm ih =>
    intro name hn
    rcases ih name hn with hname | hseen
    · cases hm with
      | walk _ => exact .inl hname
      | start hs hc =>
        rcases List.mem_cons.mp hname with rfl | hname
        · exact .inr (.inl (List.mem_cons_self ..))
        · exact .inl hname
      | skip hs =>
        rcases List.mem_cons.mp hname with rfl | hname
        · exact .inr (.inr hs)
        · exact .inl hname
    · exact .inr (hm.seen hseen)

end Progress

/-! ## Once all is settled -/

namespace Inference

/-- All symbols of the table are settled, and each has the tapes that it should have given those of the others. -/
structure Settles (symbols : SymbolTable Grammar) (known : Inference) : Prop where
  isSome_tapes? : ∀ name, (known.tapes? name).isSome = symbols.contains name
  flat : ∀ name g, symbols.get? name = some g → g.hasNested = false
  canonical : ∀ key ∈ known.recursive, Symbol.key key = key
  recursive : ∀ name, Symbol.key name ∈ known.recursive → symbols.contains name = true ∧ known.tapesOf name = ∅
  definition : ∀ name g, symbols.get? name = some g → Symbol.key name ∉ known.recursive →
    known.tapesOf name = g.tapesWith known.tapesOf
  descends : ∃ rank : String → Nat, ∀ name g, symbols.get? name = some g → Symbol.key name ∉ known.recursive →
    ∀ target ∈ g.embeds, symbols.contains target = true → rank target < rank (Symbol.key name)

variable {symbols : SymbolTable Grammar} {known : Inference}

theorem settles_of_ordered (ho : Ordered symbols known.recursive known.settled)
    (hall : ∀ name, symbols.contains name = true → Symbol.key name ∈ known.settledKeys)
    (hseen : ∀ key ∈ known.recursive, key ∈ known.settledKeys) : known.Settles symbols := by
  have hcont : ∀ name, Symbol.key name ∈ known.settledKeys → symbols.contains name = true := fun name h => by
    simpa using ho.contains h
  have hkey : ∀ name g, symbols.get? name = some g → Symbol.key name ∈ known.settledKeys := fun name g hg =>
    hall name (SymbolTable.contains_of_get? hg)
  refine ⟨fun name => ?_, fun name g hg => ?_, fun key hr => ?_, fun name hr => ?_, fun name g hg hr => ?_,
    ⟨rankIn known.settled, fun name g hg hr target ht hc => ?_⟩⟩
  · rw [Bool.eq_iff_iff, tapes?, isSome_tapesOfKey?]
    exact ⟨hcont name, hall name⟩
  · obtain ⟨_, _, _, _, _, _, hflat, _⟩ := ho.exists_settledWell hg (hkey name g hg)
    exact hflat
  · obtain ⟨_, _, _, _, _, hw⟩ := ho.exists_split (hseen key hr)
    exact hw.canonical
  · have hc := hcont name (hseen _ hr)
    obtain ⟨g, hg⟩ := SymbolTable.exists_get? hc
    obtain ⟨_, _, _, _, _, ht, _, hrec, _⟩ := ho.exists_settledWell hg (hkey name g hg)
    exact ⟨hc, ht.trans (hrec hr)⟩
  · obtain ⟨after, tapes, before, he, _, ht, hflat, _, hdef⟩ := ho.exists_settledWell hg (hkey name g hg)
    obtain ⟨htapes, hembeds⟩ := hdef hr
    show tapesIn known.settled name = g.tapesWith (tapesIn known.settled)
    rw [ht, htapes, he]
    exact Ordered.tapesWith_eq (he ▸ ho) hflat hembeds
  · obtain ⟨after, tapes, before, he, hn, _, _, _, hdef⟩ := ho.exists_settledWell hg (hkey name g hg)
    rw [he]
    exact Ordered.rankIn_lt (he ▸ ho) hn ((hdef hr).2 target ht hc)

/-- Settling without a fault settles all symbols. -/
theorem settleTable_settles (h : (settleTable symbols {}).result = .ok ()) :
    (settleTable symbols {}).known.Settles symbols := by
  obtain ⟨reported, messages, hr, -⟩ := settleTable_reached h
  have hf := hr.faithful
  refine settles_of_ordered hf.ordered (fun name hc => ?_) fun key hk => ?_
  · obtain ⟨entry, he, hk⟩ := SymbolTable.contains_iff.mp hc
    rw [← hk]
    rcases hr.names_accounted entry.1 (List.mem_map.mpr ⟨entry, he, rfl⟩) with h | h | h
    · cases h
    · cases h
    · exact h
  · rcases hf.seen key hk with h | h
    · exact h
    · cases h

end Inference

end SheetGrammar
