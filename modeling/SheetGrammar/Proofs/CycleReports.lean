import SheetGrammar.Proofs.RecursionReports

/-!
Which symbols are reported as recursive. Not all that embed themselves are: the walk passes over a symbol that is
settled, so a cycle that is left by such a symbol is not seen a second time. With

    a = $b $c      b = $a      c = $b

the walk from `a` closes the cycle of `a` and `b` and settles `b`; when it comes to `c`, `b` is settled, and the cycle
of `c` through `b` and `a` goes unreported.

A symbol is reported exactly if it is on a cycle none of whose symbols was settled when the walk came to it
(`EmbedsUnsettled`, `Progress.Enters`). For the proof a symbol is followed from the move that enters it to the move
that settles it (`Walk.Tracks`).

- `Moves.tracks`: while the symbol is visited, everything inside it is found through embeds of unsettled symbols, and
  everything that these embed is dealt with, unless the symbol is known to be recursive already.
- `Reached.traced`: the same for every symbol, at every time.
-/

namespace SheetGrammar

open Relation

namespace SymbolTable

variable {symbols : SymbolTable Grammar}

def EmbedsUnsettled (symbols : SymbolTable Grammar) (before : Inference) (a b : String) : Prop :=
  symbols.Embeds a b ∧ b ∉ before.settledKeys

theorem mem_targets_iff (hflat : ∀ entry ∈ symbols, entry.2.hasNested = false) {a b : String} :
    b ∈ symbols.targets a ↔ symbols.Embeds a b := by
  constructor
  · intro h
    obtain ⟨g, hg, hb⟩ := get?_of_mem_targets h
    obtain ⟨entry, he, -, rfl⟩ := mem_of_get? hg
    obtain ⟨m, symbol, hn, hk⟩ := (Grammar.mem_embeds_iff (hflat entry he)).mp hb
    exact ⟨entry.2, m, symbol, hg, hn, hk⟩
  · rintro ⟨g, m, symbol, hg, hn, hk⟩
    obtain ⟨entry, he, -, rfl⟩ := mem_of_get? hg
    rw [targets_of_get? hg]
    exact (Grammar.mem_embeds_iff (hflat entry he)).mpr ⟨m, symbol, hn, hk⟩

end SymbolTable

/-! ## A symbol from its entry on -/

/-- The visits down to `key` are `inner`, the last of them its own, and `before` is what was known when it was
entered. -/
structure Walk.Tracks (symbols : SymbolTable Grammar) (before : Inference) (key : String) (walk : Walk)
    (inner outer : List Visit) : Prop where
  visits : walk.visits = inner ++ outer
  last : (inner.map Visit.key).getLast? = some key
  settled : ∀ k ∈ before.settledKeys, k ∈ walk.known.settledKeys
  below : ∀ k ∈ outer.map Visit.key, ReflTransGen (symbols.EmbedsUnsettled before) k key
  above : ∀ v ∈ inner, ReflTransGen (symbols.EmbedsUnsettled before) key v.key
  sound : key ∈ walk.known.recursive → TransGen (symbols.EmbedsUnsettled before) key key
  looked : ∀ v ∈ inner, ∀ target ∈ symbols.targets v.key,
    target ∈ v.pending ∨ Handled symbols walk.known ((inner.map Visit.key).filter (· ≠ key)) key target
  done : ∀ k ∈ walk.known.settledKeys, k ∉ before.settledKeys → ∀ target ∈ symbols.targets k,
    Handled symbols walk.known ((inner.map Visit.key).filter (· ≠ key)) key target

namespace Walk

variable {symbols : SymbolTable Grammar} {walk next : Walk} {before known known' : Inference} {key k target : String}
  {pending : List String} {rest inner outer : List Visit} {messages messages' : List Message}

/-- A symbol that is visited is on a cycle closed at `target` exactly if `target` is that symbol or one outside it. -/
theorem Aligned.mem_members_iff (ha : walk.Aligned symbols) {inside outside : List String}
    (hk : walk.keys = inside ++ outside) (hl : inside.getLast? = some key) (ht : target ∈ walk.known.inProgress) :
    key ∈ walk.known.members target ↔ target = key ∨ target ∈ outside := by
  have hin : key ∈ inside := List.mem_of_getLast? hl
  have hn := ha.nodup
  rw [hk] at hn
  have htk : target ∈ inside ++ outside := hk ▸ ha.mem_inProgress.mp ht
  rcases List.mem_append.mp htk with h | h
  · obtain ⟨front, back, rfl⟩ := List.append_of_mem h
    have hsplit : walk.keys = front ++ target :: (back ++ outside) := by rw [hk]; simp
    have hnot : key ∉ front := by
      intro hf
      have hlast : key ∈ target :: back := by
        rw [List.getLast?_append_of_ne_nil _ (List.cons_ne_nil _ _)] at hl
        exact List.mem_of_getLast? hl
      exact (List.nodup_append.mp (List.nodup_append.mp hn).1).2.2 key hf key hlast rfl
    have hout : target ∉ outside := by
      intro ho
      exact (List.nodup_append.mp hn).2.2 target h target ho rfl
    rw [ha.members_eq hsplit, List.mem_cons, List.mem_reverse]
    simp [hnot, hout, eq_comm]
  · obtain ⟨front, back, rfl⟩ := List.append_of_mem h
    have hsplit : walk.keys = (inside ++ front) ++ target :: back := by rw [hk]; simp
    rw [ha.members_eq hsplit]
    simp [hin]

/-- The innermost visit is done with a target. -/
theorem Tracks.advance
    (ht : Tracks symbols before key ⟨known, ⟨k, target :: pending⟩ :: (rest ++ outer), messages⟩
      (⟨k, target :: pending⟩ :: rest) outer)
    (hs : known'.settledKeys = known.settledKeys) (hr : ∀ x ∈ known.recursive, x ∈ known'.recursive)
    (hsound : key ∈ known'.recursive → TransGen (symbols.EmbedsUnsettled before) key key)
    (htarget : Handled symbols known' ((k :: rest.map Visit.key).filter (· ≠ key)) key target) :
    Tracks symbols before key ⟨known', ⟨k, pending⟩ :: (rest ++ outer), messages'⟩ (⟨k, pending⟩ :: rest) outer := by
  have hmono : ∀ {t}, Handled symbols known ((k :: rest.map Visit.key).filter (· ≠ key)) key t →
      Handled symbols known' ((k :: rest.map Visit.key).filter (· ≠ key)) key t := fun h =>
    h.mono (fun x hx => hs ▸ hx) hr (fun x hx => .inr hx)
  refine ⟨rfl, ht.last, ?_, ht.below, ?_, hsound, ?_, ?_⟩
  · intro x hx
    show x ∈ known'.settledKeys
    rw [hs]
    exact ht.settled x hx
  · intro v hv
    rcases List.mem_cons.mp hv with rfl | hv
    · exact ht.above ⟨k, target :: pending⟩ (List.mem_cons_self ..)
    · exact ht.above v (List.mem_cons_of_mem _ hv)
  · intro v hv t hmem
    rcases List.mem_cons.mp hv with rfl | hv
    · have hold := ht.looked ⟨k, target :: pending⟩ (List.mem_cons_self ..) t hmem
      exact mem_or_of_dealt (hold.imp id hmono) htarget
    · exact (ht.looked v (List.mem_cons_of_mem _ hv) t hmem).imp id hmono
  · intro x hx hnew t hmem
    exact hmono (ht.done x (hs ▸ hx) hnew t hmem)

/-- The symbols that are visited were not settled before. -/
theorem Tracks.not_settled (ha : walk.Aligned symbols) (ht : Tracks symbols before key walk inner outer) {x : String}
    (hx : x ∈ walk.keys) : x ∉ before.settledKeys := by
  intro h
  exact ha.unsettled x hx (ht.settled x h)

theorem Tracks.keys_eq (ht : Tracks symbols before key walk inner outer) :
    walk.keys = inner.map Visit.key ++ outer.map Visit.key := by
  rw [keys, ht.visits, List.map_append]

theorem Tracks.key_mem (ht : Tracks symbols before key walk inner outer) : key ∈ walk.keys := by
  rw [ht.keys_eq]
  exact List.mem_append_left _ (List.mem_of_getLast? ht.last)

/-- A cycle that the symbol is on is closed. -/
theorem Tracks.transGen_of_close (hflat : ∀ entry ∈ symbols, entry.2.hasNested = false) (ha : walk.Aligned symbols)
    (ht : Tracks symbols before key walk inner outer) {v : Visit} (hv : v ∈ inner)
    (htarget : target ∈ symbols.targets v.key)
    (hkey : target = key ∨ target ∈ outer.map Visit.key) : TransGen (symbols.EmbedsUnsettled before) key key := by
  have hmem : target ∈ walk.keys := by
    rcases hkey with rfl | hkey
    · exact ht.key_mem
    · rw [ht.keys_eq]
      exact List.mem_append_right _ hkey
  have hstep : symbols.EmbedsUnsettled before v.key target :=
    ⟨(SymbolTable.mem_targets_iff hflat).mp htarget, ht.not_settled ha hmem⟩
  have hback : ReflTransGen (symbols.EmbedsUnsettled before) target key := by
    rcases hkey with rfl | hkey
    · exact .refl
    · exact ht.below target hkey
  exact (TransGen.tail' (ht.above v hv) hstep).trans_left hback

theorem Tracks.close (hflat : ∀ entry ∈ symbols, entry.2.hasNested = false)
    (ha : Aligned symbols ⟨known, ⟨k, target :: pending⟩ :: (rest ++ outer), messages⟩)
    (ht : Tracks symbols before key ⟨known, ⟨k, target :: pending⟩ :: (rest ++ outer), messages⟩
      (⟨k, target :: pending⟩ :: rest) outer)
    (hp : target ∈ known.inProgress) :
    Tracks symbols before key ⟨(known.closeCycle symbols target).1, ⟨k, pending⟩ :: (rest ++ outer), messages'⟩
      (⟨k, pending⟩ :: rest) outer := by
  have hiff := ha.mem_members_iff ht.keys_eq ht.last hp
  have hmem : target ∈ symbols.targets k := ha.mem_targets (List.mem_cons_self ..) (List.mem_cons_self ..)
  have hrec : ∀ x, x ∈ (known.closeCycle symbols target).1.recursive ↔
      x ∈ known.members target ∨ x ∈ known.recursive := by
    intro x
    exact Inference.mem_recursive_closeCycle
  refine ht.advance (Inference.settledKeys_closeCycle ..) (fun x hx => (hrec x).mpr (.inr hx)) ?_ ?_
  · intro hkey
    rcases (hrec key).mp hkey with h | h
    · exact ht.transGen_of_close hflat ha (List.mem_cons_self ..) hmem (hiff.mp h)
    · exact ht.sound h
  · by_cases h : target = key ∨ target ∈ outer.map Visit.key
    · exact .inr (.inr (.inl ((hrec key).mpr (.inl (hiff.mpr h)))))
    · -- the cycle closes inside the symbol
      have hinner : target ∈ k :: rest.map Visit.key := by
        rcases List.mem_append.mp (ht.keys_eq ▸ ha.mem_inProgress.mp hp) with hi | ho
        · exact hi
        · exact absurd (.inr ho) h
      exact .inr (.inr (.inr (List.mem_filter.mpr ⟨hinner, by simpa using fun e => h (.inl e)⟩)))

theorem Tracks.enter (hflat : ∀ entry ∈ symbols, entry.2.hasNested = false)
    (ha : Aligned symbols ⟨known, ⟨k, target :: pending⟩ :: (rest ++ outer), messages⟩)
    (ht : Tracks symbols before key ⟨known, ⟨k, target :: pending⟩ :: (rest ++ outer), messages⟩
      (⟨k, target :: pending⟩ :: rest) outer)
    (hs : target ∉ known.settledKeys) (hp : target ∉ known.inProgress) :
    Tracks symbols before key
      ⟨known.enter target, ⟨target, symbols.targets target⟩ :: ⟨k, pending⟩ :: (rest ++ outer), messages'⟩
      (⟨target, symbols.targets target⟩ :: ⟨k, pending⟩ :: rest) outer := by
  have hne : target ≠ key := by
    rintro rfl
    exact hp (ha.mem_inProgress.mpr ht.key_mem)
  have hmem : target ∈ symbols.targets k := ha.mem_targets (List.mem_cons_self ..) (List.mem_cons_self ..)
  have hstep : symbols.EmbedsUnsettled before k target :=
    ⟨(SymbolTable.mem_targets_iff hflat).mp hmem, fun h => hs (ht.settled target h)⟩
  have habove := ht.above ⟨k, target :: pending⟩ (List.mem_cons_self ..)
  have hmono : ∀ {t}, Handled symbols known ((k :: rest.map Visit.key).filter (· ≠ key)) key t →
      Handled symbols (known.enter target) ((target :: k :: rest.map Visit.key).filter (· ≠ key)) key t := by
    intro t h
    refine h.mono (by simp) (by simp) ?_
    intro x hx
    rw [List.filter_cons_of_pos (by simpa using hne)]
    exact .inr (List.mem_cons_of_mem _ hx)
  refine ⟨rfl, ?_, ?_, ht.below, ?_, ?_, ?_, ?_⟩
  · rw [List.map_cons, List.map_cons, List.getLast?_cons_cons]
    exact ht.last
  · intro x hx
    simpa using ht.settled x hx
  · intro v hv
    rcases List.mem_cons.mp hv with rfl | hv
    · exact habove.tail hstep
    · rcases List.mem_cons.mp hv with rfl | hv
      · exact habove
      · exact ht.above v (List.mem_cons_of_mem _ hv)
  · intro h
    exact ht.sound (by simpa using h)
  · intro v hv t hmem
    rcases List.mem_cons.mp hv with rfl | hv
    · exact .inl hmem
    · rcases List.mem_cons.mp hv with rfl | hv
      · have hold := ht.looked ⟨k, target :: pending⟩ (List.mem_cons_self ..) t hmem
        refine mem_or_of_dealt (hold.imp id hmono) (.inr (.inr (.inr ?_)))
        exact List.mem_filter.mpr ⟨List.mem_cons_self .., by simpa using hne⟩
      · exact (ht.looked v (List.mem_cons_of_mem _ hv) t hmem).imp id hmono
  · intro x hx hnew t hmem
    exact hmono (ht.done x (by simpa using hx) hnew t hmem)

/-- A symbol inside is settled. -/
theorem Tracks.settle {g : Grammar} {v : Visit}
    (ht : Tracks symbols before key ⟨known, ⟨k, []⟩ :: v :: (rest ++ outer), messages⟩ (⟨k, []⟩ :: v :: rest) outer) :
    Tracks symbols before key ⟨known.settle k g, v :: (rest ++ outer), messages'⟩ (v :: rest) outer := by
  have hmono : ∀ {t}, Handled symbols known ((k :: v.key :: rest.map Visit.key).filter (· ≠ key)) key t →
      Handled symbols (known.settle k g) ((v.key :: rest.map Visit.key).filter (· ≠ key)) key t := by
    intro t h
    have hset : ∀ x ∈ known.settledKeys, x ∈ (known.settle k g).settledKeys := fun x hx => List.mem_cons_of_mem _ hx
    have hrec : ∀ x ∈ known.recursive, x ∈ (known.settle k g).recursive := fun x hx => hx
    refine h.mono hset hrec ?_
    intro x hx
    obtain ⟨hx, hne⟩ := List.mem_filter.mp hx
    rcases List.mem_cons.mp hx with rfl | hx
    · exact .inl (List.mem_cons_self ..)
    · exact .inr (List.mem_filter.mpr ⟨hx, hne⟩)
  refine ⟨rfl, ?_, ?_, ht.below, ?_, ht.sound, ?_, ?_⟩
  · have := ht.last
    rwa [List.map_cons, List.map_cons, List.getLast?_cons_cons] at this
  · intro x hx
    exact List.mem_cons_of_mem _ (ht.settled x hx)
  · intro v' hv
    exact ht.above v' (List.mem_cons_of_mem _ hv)
  · intro v' hv t hmem
    exact (ht.looked v' (List.mem_cons_of_mem _ hv) t hmem).imp id hmono
  · intro x hx hnew t hmem
    rcases List.mem_cons.mp hx with rfl | hx
    · rcases ht.looked ⟨x, []⟩ (List.mem_cons_self ..) t hmem with h | h
      · cases h
      · exact hmono h
    · exact hmono (ht.done x hx hnew t hmem)

/-- When the symbol itself is about to be settled, all that it leads to through unsettled symbols is settled or
unknown, unless it is recursive. -/
theorem Tracks.mem_recursive_iff (hflat : ∀ entry ∈ symbols, entry.2.hasNested = false)
    (ha : Aligned symbols ⟨known, ⟨key, []⟩ :: outer, messages⟩)
    (ht : Tracks symbols before key ⟨known, ⟨key, []⟩ :: outer, messages⟩ [⟨key, []⟩] outer) :
    key ∈ known.recursive ↔ TransGen (symbols.EmbedsUnsettled before) key key := by
  refine ⟨ht.sound, fun hcycle => ?_⟩
  by_contra hrec
  have hclear : ∀ {t}, Handled symbols known ([key].filter (· ≠ key)) key t →
      t ∈ known.settledKeys ∨ symbols.contains t = false := by
    rintro t (h | h | h | h)
    · exact .inl h
    · exact .inr h
    · exact absurd h hrec
    · simp at h
  have hall : ∀ y, TransGen (symbols.EmbedsUnsettled before) key y →
      y ∉ before.settledKeys ∧ (y ∈ known.settledKeys ∨ symbols.contains y = false) := by
    intro y hy
    induction hy with
    | single h =>
      rcases ht.looked ⟨key, []⟩ (List.mem_cons_self ..) _ ((SymbolTable.mem_targets_iff hflat).mpr h.1) with h' | h'
      · cases h'
      · exact ⟨h.2, hclear h'⟩
    | @tail b c _ h ih =>
      have hb : b ∈ known.settledKeys := by
        rcases ih.2 with hb | hb
        · exact hb
        · rw [h.1.contains_left] at hb
          cases hb
      exact ⟨h.2, hclear (ht.done b hb ih.1 c ((SymbolTable.mem_targets_iff hflat).mpr h.1))⟩
  rcases (hall key hcycle).2 with h | h
  · exact ha.unsettled key ht.key_mem h
  · rw [ha.contained key ht.key_mem] at h
    cases h

/-- The move that follows leaves the symbol visited, or settles it with the right verdict. -/
theorem Moves.tracks (hflat : ∀ entry ∈ symbols, entry.2.hasNested = false) (ha : walk.Aligned symbols)
    (ht : Tracks symbols before key walk inner outer) (h : walk.Moves symbols next) :
    (∃ inner', Tracks symbols before key next inner' outer) ∨
      key ∈ next.known.settledKeys ∧
        (key ∈ next.known.recursive ↔ TransGen (symbols.EmbedsUnsettled before) key key) := by
  cases inner with
  | nil => cases ht.last
  | cons v rest =>
    have hvisits := ht.visits
    cases h with
    | pass hpass =>
      obtain ⟨rfl, rfl⟩ := List.cons.inj hvisits
      refine .inl ⟨_, ht.advance rfl (fun x hx => hx) ht.sound ?_⟩
      exact hpass.elim .inl fun h => .inr (.inl h.2)
    | close hs hp =>
      obtain ⟨rfl, rfl⟩ := List.cons.inj hvisits
      exact .inl ⟨_, ht.close hflat ha hp⟩
    | enter hs hp hc =>
      obtain ⟨rfl, rfl⟩ := List.cons.inj hvisits
      exact .inl ⟨_, ht.enter hflat ha hs hp⟩
    | @settle known k visits messages g hg hnested =>
      obtain ⟨rfl, rfl⟩ := List.cons.inj hvisits
      cases rest with
      | nil =>
        obtain rfl : k = key := Option.some.inj ht.last
        have hverdict := Tracks.mem_recursive_iff hflat ha ht
        exact .inr ⟨List.mem_cons_self .., hverdict⟩
      | cons v' rest => exact .inl ⟨_, ht.settle⟩

/-- Every symbol that is visited is embedded by the one that is visited around it. -/
def Linked (symbols : SymbolTable Grammar) (walk : Walk) : Prop :=
  walk.keys.IsChain fun inside outside => symbols.Embeds outside inside

theorem Moves.linked (hflat : ∀ entry ∈ symbols, entry.2.hasNested = false) (ha : walk.Aligned symbols)
    (hl : walk.Linked symbols) (h : walk.Moves symbols next) : next.Linked symbols := by
  cases h with
  | pass _ => exact hl
  | close _ _ => exact hl
  | enter _ _ _ =>
    have hmem := ha.mem_targets (List.mem_cons_self ..) (List.mem_cons_self ..)
    exact List.isChain_cons_cons.mpr ⟨(SymbolTable.mem_targets_iff hflat).mp hmem, hl⟩
  | settle _ _ => exact hl.of_cons

/-- The symbols around the innermost one lead to it, through the symbols that are visited. -/
theorem Linked.reflTransGen {keys : List String}
    (hl : (key :: keys).IsChain fun inside outside => symbols.Embeds outside inside)
    (hs : ∀ x ∈ key :: keys, x ∉ before.settledKeys) :
    ∀ x ∈ keys, ReflTransGen (symbols.EmbedsUnsettled before) x key := by
  induction keys generalizing key with
  | nil =>
    intro x hx
    cases hx
  | cons first rest ih =>
    obtain ⟨hembeds, hrest⟩ := List.isChain_cons_cons.mp hl
    have hstep : symbols.EmbedsUnsettled before first key := ⟨hembeds, hs key (List.mem_cons_self ..)⟩
    intro x hx
    rcases List.mem_cons.mp hx with rfl | hx
    · exact .single hstep
    · exact (ih hrest (fun y hy => hs y (List.mem_cons_of_mem _ hy)) x hx).tail hstep

/-- A symbol that has just been entered is tracked. -/
theorem Tracks.begin (ha : Aligned symbols ⟨known.enter key, ⟨key, symbols.targets key⟩ :: outer, messages⟩)
    (hl : Linked symbols ⟨known.enter key, ⟨key, symbols.targets key⟩ :: outer, messages⟩)
    (hr : key ∉ known.recursive) :
    Tracks symbols known key ⟨known.enter key, ⟨key, symbols.targets key⟩ :: outer, messages⟩
      [⟨key, symbols.targets key⟩] outer := by
  refine ⟨rfl, rfl, by simp, ?_, ?_, ?_, ?_, ?_⟩
  · refine Linked.reflTransGen hl ?_
    intro x hx
    simpa using ha.unsettled x hx
  · intro v hv
    rw [List.mem_singleton.mp hv]
  · intro h
    exact absurd (by simpa using h) hr
  · intro v hv t ht
    rw [List.mem_singleton.mp hv] at ht ⊢
    exact .inl ht
  · intro x hx hnew
    exact absurd (by simpa using hx) hnew

end Walk

/-! ## Every symbol at every time -/

namespace Progress

variable {symbols : SymbolTable Grammar} {p q : Progress} {key : String} {before before' : Inference}

def Enters (symbols : SymbolTable Grammar) (key : String) (before : Inference) : Prop :=
  ∃ p q, Reached symbols p ∧ Moves symbols p q ∧ key ∉ p.walk.keys ∧ key ∈ q.walk.keys ∧ p.walk.known = before

theorem Moves.settledKeys_subset (h : Moves symbols p q) (hk : key ∈ p.walk.known.settledKeys) :
    key ∈ q.walk.known.settledKeys := by
  cases h with
  | walk hw => exact hw.settledKeys_subset hk
  | start _ _ => simpa [Walk.begun] using hk
  | skip _ => exact hk

/-- A symbol is entered once. -/
theorem Enters.eq_of_later {p' q' : Progress} (hm : Moves symbols p q) (hin : key ∈ q.walk.keys)
    (hlater : ReflTransGen (Moves symbols) p p') (hp' : Reached symbols p') (hm' : Moves symbols p' q')
    (hout' : key ∉ p'.walk.keys) (hin' : key ∈ q'.walk.keys) : p.walk.known = p'.walk.known := by
  rcases ReflTransGen.cases_head hlater with rfl | ⟨r, hr, hrest⟩
  · rfl
  · obtain rfl := hm.unique hr
    have hseen : p'.walk.Seen key := by
      clear hp' hm' hout' hlater
      induction hrest with
      | refl => exact .inl hin
      | tail _ hstep ih => exact hstep.seen ih
    have hsettled := hm'.settledKeys_subset (hseen.resolve_left hout')
    have ha : q'.walk.Aligned symbols := Reached.aligned (.tail hp' hm')
    exact absurd hsettled (ha.unsettled key hin')

theorem Enters.unique (h : Enters symbols key before) (h' : Enters symbols key before') : before = before' := by
  obtain ⟨p, q, hp, hm, hout, hin, rfl⟩ := h
  obtain ⟨p', q', hp', hm', hout', hin', rfl⟩ := h'
  have hdet : Relator.RightUnique (Moves symbols) := fun _ _ _ h1 h2 => h1.unique h2
  rcases ReflTransGen.total_of_right_unique hdet hp hp' with hlater | hlater
  · exact Enters.eq_of_later hm hin hlater hp' hm' hout' hin'
  · exact (Enters.eq_of_later hm' hin' hlater hp hm hout hin).symm

theorem Reached.linked (hflat : ∀ entry ∈ symbols, entry.2.hasNested = false) (h : Reached symbols p) :
    p.walk.Linked symbols := by
  induction h with
  | refl => exact .nil
  | @tail p q hp hm ih =>
    cases hm with
    | walk hw => exact hw.linked hflat (Reached.aligned hp) ih
    | start _ _ => exact .singleton _
    | skip _ => exact ih

/-- A symbol is being tracked since it was entered, or is settled with the right verdict. -/
def Traced (symbols : SymbolTable Grammar) (p : Progress) (key : String) (before : Inference) : Prop :=
  (∃ inner outer, p.walk.Tracks symbols before key inner outer) ∨
    key ∈ p.walk.known.settledKeys ∧
      (key ∈ p.walk.known.recursive ↔ TransGen (symbols.EmbedsUnsettled before) key key)

theorem Moves.traced (hflat : ∀ entry ∈ symbols, entry.2.hasNested = false) (ha : p.walk.Aligned symbols)
    (h : Moves symbols p q) (ht : Traced symbols p key before) : Traced symbols q key before := by
  cases h with
  | walk hw =>
    rcases ht with ⟨inner, outer, ht⟩ | ⟨hs, hiff⟩
    · exact (hw.tracks hflat ha ht).imp (fun ⟨inner', ht'⟩ => ⟨inner', outer, ht'⟩) id
    · exact .inr ⟨hw.settledKeys_subset hs, (hw.mem_recursive_iff ha hs).trans hiff⟩
  | start _ _ =>
    rcases ht with ⟨inner, outer, ht⟩ | ⟨hs, hiff⟩
    · cases ht.key_mem
    · exact .inr (by simpa [Walk.begun] using ⟨hs, hiff⟩)
  | skip _ => exact ht

/-- A move that makes a symbol seen enters it. -/
theorem Moves.traced_of_new (hflat : ∀ entry ∈ symbols, entry.2.hasNested = false) (hp : Reached symbols p)
    (h : Moves symbols p q) (hnew : ¬ p.walk.Seen key) (hseen : q.walk.Seen key) :
    key ∈ q.walk.keys ∧ Traced symbols q key p.walk.known := by
  have ha : q.walk.Aligned symbols := Reached.aligned (.tail hp h)
  have hl : q.walk.Linked symbols := Reached.linked hflat (.tail hp h)
  have hrec : key ∉ p.walk.known.recursive := fun hr => hnew (hp.faithful.seen key hr).symm
  cases h with
  | @walk names reported walk next hw =>
    cases hw with
    | pass _ => exact absurd hseen hnew
    | close _ _ => exact absurd (hseen.imp id fun hk => by simpa using hk) hnew
    | @enter known k target pending outer messages hs hpr hc =>
      have hkey : key = target := by
        rcases hseen with hk | hk
        · rcases List.mem_cons.mp hk with hk | hk
          · exact hk
          · exact absurd (.inl hk) hnew
        · exact absurd (.inr (by simpa using hk)) hnew
      subst hkey
      exact ⟨List.mem_cons_self .., .inl ⟨_, _, .begin ha hl hrec⟩⟩
    | @settle known k outer messages g hg hn =>
      refine absurd ?_ hnew
      rcases hseen with hk | hk
      · exact .inl (List.mem_cons_of_mem _ hk)
      · rcases List.mem_cons.mp hk with rfl | hk
        · exact .inl (List.mem_cons_self ..)
        · exact .inr hk
  | @start name names reported messages known hs hc =>
    have hkey : key = Symbol.key name := by
      rcases hseen with hk | hk
      · exact List.mem_singleton.mp hk
      · exact absurd (.inr (by simpa [Walk.begun] using hk)) hnew
    subst hkey
    exact ⟨List.mem_cons_self .., .inl ⟨_, _, .begin ha hl hrec⟩⟩
  | skip _ => exact absurd hseen hnew

theorem Reached.traced (hflat : ∀ entry ∈ symbols, entry.2.hasNested = false) (h : Reached symbols p) :
    ∀ key, p.walk.Seen key → ∃ before, Enters symbols key before ∧ Traced symbols p key before := by
  induction h with
  | refl =>
    intro key hseen
    rcases hseen with h | h
    · cases h
    · cases h
  | @tail p q hp hm ih =>
    intro key hseen
    by_cases hold : p.walk.Seen key
    · obtain ⟨before, he, ht⟩ := ih key hold
      exact ⟨before, he, hm.traced hflat (Reached.aligned hp) ht⟩
    · obtain ⟨hin, ht⟩ := hm.traced_of_new hflat hp hold hseen
      exact ⟨p.walk.known, ⟨p, q, hp, hm, fun hk => hold (.inl hk), hin, rfl⟩, ht⟩

end Progress

namespace Inference

variable {m : Mark} {symbols : SymbolTable Grammar} {run : Inferred Grammar}

/-- A symbol of a table is found to be recursive exactly if it is on a cycle that was unsettled when the walk came to
it. -/
theorem Annotates.mem_recursive_iff (hflat : ∀ entry ∈ symbols, entry.2.hasNested = false)
    (ha : Annotates m symbols run) {name : String} (hc : symbols.contains name = true) :
    ∃ before, Progress.Enters symbols (Symbol.key name) before ∧
      (Symbol.key name ∈ run.known.recursive ↔
        TransGen (symbols.EmbedsUnsettled before) (Symbol.key name) (Symbol.key name)) := by
  obtain ⟨reported, messages, hr⟩ := ha.reached
  have hsettled : Symbol.key name ∈ run.known.settledKeys := by
    rw [← isSome_tapesOfKey?]
    exact (ha.settles.isSome_tapes? name).trans hc
  obtain ⟨before, he, ht⟩ := hr.traced hflat _ (.inr hsettled)
  rcases ht with ⟨inner, outer, ht⟩ | ⟨-, hiff⟩
  · cases ht.key_mem
  · exact ⟨before, he, hiff⟩

/-- A symbol gets its one report, and a definition that is null and has no tapes, exactly if it is on a cycle none of
whose symbols was settled when the walk came to it. Any other symbol gets none. -/
theorem reported_iff_on_unsettled_cycle (m : Mark) (symbols : SymbolTable Grammar) (distinct : symbols.WellFormed)
    (flat : ∀ entry ∈ symbols, ∀ n ∈ entry.2.nodes, n.isNestedTable = false) (name : String) (g : Grammar)
    (mem : (name, g) ∈ symbols) :
    ∃ (before : Inference) (all : TapeSet) (entries : SymbolTable Grammar),
      (∀ known, Progress.Enters symbols (Symbol.key name) known ↔ known = before) ∧
      (annotate {} (.table m .flat symbols)).result = .ok (.table ⟨m.pos, some all⟩ .flat entries) ∧
      ((Message.recursiveSymbols (annotate {} (.table m .flat symbols)).messages).count name = 1 ∧
          entries.get? name = some (.null ⟨g.pos, some ∅⟩) ↔
        TransGen (symbols.EmbedsUnsettled before) (Symbol.key name) (Symbol.key name)) ∧
      (¬ TransGen (symbols.EmbedsUnsettled before) (Symbol.key name) (Symbol.key name) →
        (Message.recursiveSymbols (annotate {} (.table m .flat symbols)).messages).count name = 0) := by
  have hflat : ∀ entry ∈ symbols, entry.2.hasNested = false := by
    intro entry he
    exact Grammar.hasNested_eq_false_iff.mpr (flat entry he)
  obtain ⟨g', hg'⟩ := annotate_table_ok (m := m) hflat
  have ha := annotate_table hg'
  have hcount := ha.count_recursiveSymbols distinct mem
  have hbody := SymbolTable.get?_redefine_of_mem distinct
    (fun entry => ((annotate {} (.table m .flat symbols)).known.annotateEntry entry).2) mem
  obtain ⟨before, henters, hiff⟩ := ha.mem_recursive_iff hflat (SymbolTable.contains_of_mem mem)
  refine ⟨before, _, _, ?_, ha.result, ?_, ?_⟩
  · intro known
    constructor
    · intro h
      exact h.unique henters
    · rintro rfl
      exact henters
  · rw [← hiff, hcount]
    constructor
    · rintro ⟨hone, -⟩
      by_contra hr
      rw [if_neg hr] at hone
      cases hone
    · intro hr
      rw [annotateEntry_of_recursive hr] at hbody
      exact ⟨if_pos hr, hbody⟩
  · intro hnot
    rw [hcount, if_neg (mt hiff.mp hnot)]

def crossedCycles : SymbolTable Grammar :=
  [("a", .combine {} .sequence [.embed {} "b", .embed {} "c"]), ("b", .embed {} "a"), ("c", .embed {} "b")]

theorem reported_iff_on_unsettled_cycle_crossed :
    crossedCycles.WellFormed ∧ (∀ entry ∈ crossedCycles, ∀ n ∈ entry.2.nodes, n.isNestedTable = false) ∧
      ("b", Grammar.embed {} "a") ∈ crossedCycles ∧
      ∃ (before : Inference) (all : TapeSet) (entries : SymbolTable Grammar),
        (∀ known, Progress.Enters crossedCycles (Symbol.key "b") known ↔ known = before) ∧
        (annotate {} (.table {} .flat crossedCycles)).result = .ok (.table ⟨none, some all⟩ .flat entries) ∧
        ((Message.recursiveSymbols (annotate {} (.table {} .flat crossedCycles)).messages).count "b" = 1 ∧
            entries.get? "b" = some (.null ⟨none, some ∅⟩) ↔
          TransGen (crossedCycles.EmbedsUnsettled before) (Symbol.key "b") (Symbol.key "b")) ∧
        (¬ TransGen (crossedCycles.EmbedsUnsettled before) (Symbol.key "b") (Symbol.key "b") →
          (Message.recursiveSymbols (annotate {} (.table {} .flat crossedCycles)).messages).count "b" = 0) := by
  have distinct : crossedCycles.WellFormed := by decide +kernel
  have flat : ∀ entry ∈ crossedCycles, ∀ n ∈ entry.2.nodes, n.isNestedTable = false := by decide +kernel
  have mem : ("b", Grammar.embed {} "a") ∈ crossedCycles := .tail _ (.head _)
  exact ⟨distinct, flat, mem, reported_iff_on_unsettled_cycle {} crossedCycles distinct flat "b" _ mem⟩

/-- The third symbol embeds itself through the two others, and only these are reported. -/
theorem crossedCycles_unreported :
    TransGen crossedCycles.Embeds "c" "c" ∧
      Message.recursiveSymbols (annotate {} (.table {} .flat crossedCycles)).messages = ["a", "b"] := by
  have hcb : crossedCycles.Embeds "c" "b" := ⟨_, {}, "b", rfl, .head _, by decide +kernel⟩
  have hba : crossedCycles.Embeds "b" "a" := ⟨_, {}, "a", rfl, .head _, by decide +kernel⟩
  have hac : crossedCycles.Embeds "a" "c" := ⟨_, {}, "c", rfl, .tail _ (.tail _ (.head _)), by decide +kernel⟩
  exact ⟨.tail (.tail (.single hcb) hba) hac, by decide +kernel⟩

end Inference

end SheetGrammar
