import SheetGrammar.Proofs.CycleReports
import SheetGrammar.Proofs.Derivations

/-!
Whole runs of inference: where the walk from one symbol comes to, and when inference has no result.

The walk is followed from what was known `before` it. `Walk.Explored` says that no target is lost on the way, also of
symbols that turn out to be recursive, so that at the end everything the walk could come to is settled.

- `Walk.Moves.sound`, `Walk.Sound.reaches`: what a move keeps, and so what holds at every step of a walk.
- `Inference.Explores`: what is known after a symbol has been settled, given what was known before.
- `Inference.Filled.closed`: symbols of one table that are settled one after the other leave nothing half done. What a
  recursive symbol is settled with is empty (`RecursiveEmpty`), and all that a settled symbol embeds is settled
  (`Closed`).
- `Inference.Completes`: all that a symbol leads to is settled, in a memo that is not half done. So the next symbol
  leaves it (`Filled.completes`).
- `Inference.settleSymbol_explores`: the walk ends, with nothing in progress and all that is reachable settled.
- `Grammar.inferTapes_fails_iff`: a collection anywhere is a fault, and nothing else is.
-/

namespace SheetGrammar

open Relation

/-- The embeds that a walk follows: those of symbols that were not settled when it began. -/
def SymbolTable.Follows (symbols : SymbolTable Grammar) (before : Inference) (a b : String) : Prop :=
  a ∉ before.settledKeys ∧ symbols.Embeds a b

namespace Inference

def RecursiveEmpty (known : Inference) : Prop :=
  ∀ key ∈ known.recursive, ∀ tapes, known.tapesOfKey? key = some tapes → tapes = ∅

def Closed (symbols : SymbolTable Grammar) (known : Inference) : Prop :=
  ∀ a ∈ known.settledKeys, ∀ b, symbols.Embeds a b → symbols.contains b = true → b ∈ known.settledKeys

theorem Closed.mem_of_reachable {symbols : SymbolTable Grammar} {known : Inference} (h : known.Closed symbols)
    {a b : String} (ha : a ∈ known.settledKeys) (hpath : ReflTransGen symbols.Embeds a b)
    (hb : symbols.contains b = true) :
    b ∈ known.settledKeys := by
  induction hpath with
  | refl => exact ha
  | tail _ hembeds ih => exact h _ (ih hembeds.contains_left) _ hembeds hb

theorem tapesOfKey?_settle_of_ne {known : Inference} {key other : String} {g : Grammar} (h : key ≠ other) :
    (known.settle other g).tapesOfKey? key = known.tapesOfKey? key := by
  have hne : (key == other) = false := beq_eq_false_iff_ne.mpr h
  simp [settle, tapesOfKey?, List.lookup_cons, hne]

theorem tapesOfKey?_settle_self {known : Inference} {key : String} {g : Grammar} (h : key ∈ known.recursive) :
    (known.settle key g).tapesOfKey? key = some ∅ := by
  simp [settle, tapesOfKey?, h]

end Inference

/-! ## What every move keeps -/

namespace Walk

variable {symbols : SymbolTable Grammar} {walk next : Walk} {before : Inference} {key : String}

theorem Moves.tapesOfKey?_eq (ha : walk.Aligned symbols) (h : walk.Moves symbols next) {tapes : TapeSet}
    (hk : walk.known.tapesOfKey? key = some tapes) : next.known.tapesOfKey? key = some tapes := by
  cases h with
  | pass _ => exact hk
  | close _ _ => simpa [Inference.tapesOfKey?] using hk
  | enter _ _ _ => simpa [Inference.tapesOfKey?] using hk
  | @settle known other outer messages g _ _ =>
    -- what is settled now was not settled before
    have hne : key ≠ other := by
      rintro rfl
      exact ha.unsettled key List.mem_cons_self (Inference.isSome_tapesOfKey?.mp (by rw [hk]; rfl))
    rwa [Inference.tapesOfKey?_settle_of_ne hne]

theorem Moves.recursiveEmpty (ha : walk.Aligned symbols) (h : walk.Moves symbols next)
    (hr : walk.known.RecursiveEmpty) : next.known.RecursiveEmpty := by
  intro key hkey tapes htapes
  cases h with
  | pass _ => exact hr key hkey tapes htapes
  | @close known _ target _ _ _ _ _ =>
    have htapes : known.tapesOfKey? key = some tapes := by simpa [Inference.tapesOfKey?] using htapes
    rcases Inference.mem_recursive_closeCycle.mp hkey with hmember | hold
    · -- the members of a cycle are not settled
      have hsettled := Inference.isSome_tapesOfKey?.mp (by rw [htapes]; rfl)
      exact absurd hsettled (ha.unsettled key (ha.mem_keys_of_mem_members hmember))
    · exact hr key hold tapes htapes
  | enter _ _ _ => exact hr key (by simpa using hkey) tapes (by simpa [Inference.tapesOfKey?] using htapes)
  | @settle known other outer messages g _ _ =>
    by_cases heq : key = other
    · subst heq
      have hempty : (known.settle key g).tapesOfKey? key = some ∅ := Inference.tapesOfKey?_settle_self hkey
      exact Option.some.inj (htapes.symm.trans hempty)
    · rw [Inference.tapesOfKey?_settle_of_ne heq] at htapes
      exact hr key hkey tapes htapes

/-- No target of a symbol is lost that is visited, or settled since `before`: it is still to come, being visited or
settled. -/
structure Explored (symbols : SymbolTable Grammar) (before : Inference) (walk : Walk) : Prop where
  visited : ∀ v ∈ walk.visits, ∀ target ∈ symbols.targets v.key, symbols.contains target = true →
    target ∈ v.pending ∨ walk.Seen target
  settled : ∀ key ∈ walk.known.settledKeys, key ∉ before.settledKeys → ∀ target ∈ symbols.targets key,
    symbols.contains target = true → walk.Seen target

/-- The innermost visit is done with a target that is seen. -/
theorem Explored.advance {target : String} {pending : List String} {outer : List Visit}
    (he : walk.Explored symbols before) (hv : walk.visits = ⟨key, target :: pending⟩ :: outer)
    (hseen : ∀ k, walk.Seen k → next.Seen k) (htarget : symbols.contains target = true → next.Seen target) :
    ∀ v ∈ (⟨key, pending⟩ :: outer : List Visit), ∀ t ∈ symbols.targets v.key, symbols.contains t = true →
      t ∈ v.pending ∨ next.Seen t := by
  intro v hmem t ht hc
  rcases List.mem_cons.mp hmem with rfl | hmem
  · rcases he.visited ⟨key, target :: pending⟩ (by simp [hv]) t ht hc with hpending | hold
    · rcases List.mem_cons.mp hpending with rfl | hpending
      · exact .inr (htarget hc)
      · exact .inl hpending
    · exact .inr (hseen t hold)
  · exact (he.visited v (by simp [hv, hmem]) t ht hc).imp id (hseen t)

theorem Moves.explored_visited (ha : walk.Aligned symbols) (h : walk.Moves symbols next)
    (he : walk.Explored symbols before) :
    ∀ v ∈ next.visits, ∀ target ∈ symbols.targets v.key, symbols.contains target = true →
      target ∈ v.pending ∨ next.Seen target := by
  have hseen : ∀ k, walk.Seen k → next.Seen k := fun k hk => h.seen hk
  cases h with
  | pass hpass =>
    refine he.advance rfl hseen ?_
    intro hc
    rcases hpass with hs | ⟨-, hunknown⟩
    · exact .inr hs
    · rw [hc] at hunknown
      cases hunknown
  | close _ hprog =>
    refine he.advance rfl hseen ?_
    intro _
    exact hseen _ (.inl (ha.mem_inProgress.mp hprog))
  | enter _ _ _ =>
    refine List.forall_mem_cons.mpr ⟨fun t ht _ => .inl ht, he.advance rfl hseen ?_⟩
    intro _
    exact .inl List.mem_cons_self
  | settle _ _ =>
    intro v hv t ht hc
    exact (he.visited v (List.mem_cons_of_mem _ hv) t ht hc).imp id (hseen t)

theorem Moves.explored_settled (h : walk.Moves symbols next) (he : walk.Explored symbols before) :
    ∀ key ∈ next.known.settledKeys, key ∉ before.settledKeys → ∀ target ∈ symbols.targets key,
      symbols.contains target = true → next.Seen target := by
  intro key hkey hnew target ht hc
  have hseen : walk.Seen target → next.Seen target := h.seen
  have hold : key ∈ walk.known.settledKeys → next.Seen target := fun hs => hseen (he.settled key hs hnew target ht hc)
  cases h with
  | pass _ => exact hold hkey
  | close _ _ => exact hold (by simpa using hkey)
  | enter _ _ _ => exact hold (by simpa using hkey)
  | settle _ _ =>
    rcases List.mem_cons.mp hkey with rfl | hkey
    · -- nothing is pending
      rcases he.visited _ List.mem_cons_self target ht hc with hpending | hs
      · cases hpending
      · exact hseen hs
    · exact hold hkey

/-! ## What a whole walk keeps -/

structure Sound (symbols : SymbolTable Grammar) (before : Inference) (walk : Walk) : Prop where
  aligned : walk.Aligned symbols
  explored : walk.Explored symbols before
  kept : ∀ key tapes, before.tapesOfKey? key = some tapes → walk.known.tapesOfKey? key = some tapes
  recursiveEmpty : before.RecursiveEmpty → walk.known.RecursiveEmpty

theorem Moves.sound (h : walk.Moves symbols next) (hs : walk.Sound symbols before) : next.Sound symbols before where
  aligned := h.aligned hs.aligned
  explored := ⟨h.explored_visited hs.aligned hs.explored, h.explored_settled hs.explored⟩
  kept key tapes htapes := h.tapesOfKey?_eq hs.aligned (hs.kept key tapes htapes)
  recursiveEmpty hr := h.recursiveEmpty hs.aligned (hs.recursiveEmpty hr)

def Reaches (symbols : SymbolTable Grammar) : Walk → Walk → Prop :=
  ReflTransGen fun walk next => walk.step symbols = .next next

theorem Sound.reaches (hs : walk.Sound symbols before) (h : walk.Reaches symbols next) : next.Sound symbols before := by
  induction h with
  | refl => exact hs
  | tail _ hstep ih => exact (moves_of_step ih.aligned hstep).sound ih

theorem reaches_of_moves (h : ReflTransGen (Moves symbols) walk next) : walk.Reaches symbols next :=
  ReflTransGen.mono (fun _ _ hmove => step_of_moves hmove) _ _ h

theorem sound_begun {name : String} (hi : before.inProgress = []) (hs : Symbol.key name ∉ before.settledKeys)
    (hc : symbols.contains name = true) : (begun symbols before (Symbol.key name)).Sound symbols before where
  aligned := Progress.aligned_begun hi hs hc
  explored := by
    refine ⟨?_, ?_⟩
    · intro v hv target ht _
      rw [List.mem_singleton.mp hv] at ht ⊢
      exact .inl ht
    · intro key hkey hnew
      exact absurd (by simpa [begun] using hkey) hnew
  kept key tapes htapes := by simpa [begun, Inference.tapesOfKey?] using htapes
  recursiveEmpty hr := by
    intro key hkey tapes htapes
    exact hr key (by simpa [begun] using hkey) tapes (by simpa [begun, Inference.tapesOfKey?] using htapes)

/-- At the end nothing is visited any more. -/
theorem Sound.mem_settledKeys_of_done (hs : walk.Sound symbols before) (hdone : walk.visits = []) {target : String}
    (hkey : key ∈ walk.known.settledKeys) (hnew : key ∉ before.settledKeys) (ht : target ∈ symbols.targets key)
    (hc : symbols.contains target = true) : target ∈ walk.known.settledKeys := by
  rcases hs.explored.settled key hkey hnew target ht hc with hvisited | hsettled
  · rw [keys, hdone] at hvisited
    cases hvisited
  · exact hsettled

end Walk

/-! ## The settling of one symbol -/

namespace Inference

variable {symbols : SymbolTable Grammar} {known : Inference} {name : String} {limit : Nat}

structure Explores (symbols : SymbolTable Grammar) (before : Inference) (key : String) (after : Inference) : Prop where
  idle : after.inProgress = []
  kept : ∀ other tapes, before.tapesOfKey? other = some tapes → after.tapesOfKey? other = some tapes
  recursiveEmpty : before.RecursiveEmpty → after.RecursiveEmpty
  followed : ∀ other, ReflTransGen (symbols.Follows before) key other → symbols.contains other = true →
    other ∈ after.settledKeys
  closed : before.Closed symbols → after.Closed symbols
  reached : before.Closed symbols → ∀ other, ReflTransGen symbols.Embeds key other → symbols.contains other = true →
    other ∈ after.settledKeys

/-- A symbol that is settled already leads nowhere. -/
theorem explores_of_settled (hi : known.inProgress = []) {key : String} (hs : key ∈ known.settledKeys) :
    Explores symbols known key known where
  idle := hi
  kept _ _ h := h
  recursiveEmpty h := h
  followed other hpath _ := by
    rcases ReflTransGen.cases_head hpath with rfl | ⟨next, hfollows, -⟩
    · exact hs
    · exact absurd hs hfollows.1
  closed h := h
  reached hclosed other hpath hc := hclosed.mem_of_reachable hs hpath hc

theorem explores_of_done (hflat : ∀ entry ∈ symbols, entry.2.hasNested = false) {walk : Walk} {key : String}
    (hs : walk.Sound symbols known) (hdone : walk.visits = []) (hkey : key ∈ walk.known.settledKeys) :
    Explores symbols known key walk.known := by
  have hold : ∀ other ∈ known.settledKeys, other ∈ walk.known.settledKeys := by
    intro other hother
    obtain ⟨tapes, htapes⟩ := Option.isSome_iff_exists.mp (isSome_tapesOfKey?.mpr hother)
    exact isSome_tapesOfKey?.mp (by rw [hs.kept other tapes htapes]; rfl)
  have hnew : ∀ a ∈ walk.known.settledKeys, a ∉ known.settledKeys → ∀ b, symbols.Embeds a b →
    symbols.contains b = true →
      b ∈ walk.known.settledKeys := fun a ha hn b hb hc =>
    hs.mem_settledKeys_of_done hdone ha hn ((SymbolTable.mem_targets_iff hflat).mpr hb) hc
  have hclosed : known.Closed symbols → walk.known.Closed symbols := by
    intro hclosed a ha b hb hc
    by_cases hknown : a ∈ known.settledKeys
    · exact hold b (hclosed a hknown b hb hc)
    · exact hnew a ha hknown b hb hc
  refine ⟨?_, hs.kept, hs.recursiveEmpty, ?_, hclosed, fun h other hpath hc =>
    (hclosed h).mem_of_reachable hkey hpath hc⟩
  · rw [hs.aligned.inProgress, Walk.keys, hdone]
    rfl
  · intro other hpath hc
    induction hpath with
    | refl => exact hkey
    | tail _ hfollows ih => exact hnew _ (ih hfollows.2.contains_left) hfollows.1 _ hfollows.2 hc

/-- The walk from a symbol that is not settled comes to its end, with the symbol settled. -/
theorem exists_walk (hflat : ∀ entry ∈ symbols, entry.2.hasNested = false) (hi : known.inProgress = [])
    (hs : Symbol.key name ∉ known.settledKeys) (hc : symbols.contains name = true) (hl : Walk.bound symbols ≤ limit) :
    ∃ last, (Walk.begun symbols known (Symbol.key name)).Reaches symbols last ∧ last.visits = [] ∧
      Symbol.key name ∈ last.known.settledKeys ∧
        known.settleSymbol symbols limit name = ⟨last.known, last.messages, .ok ()⟩ := by
  have ha := Progress.aligned_begun hi hs hc
  have hfault : ((Walk.begun symbols known (Symbol.key name)).run symbols limit).2 = none :=
    Walk.run_snd_eq_none hflat limit
  obtain ⟨hmoves, hdone⟩ := Walk.run_spec ha ((Progress.left_begun_le hi hs hc).trans hl) hfault
  have hseen : ((Walk.begun symbols known (Symbol.key name)).run symbols limit).1.Seen (Symbol.key name) := by
    generalize ((Walk.begun symbols known (Symbol.key name)).run symbols limit).1 = last at hmoves
    clear hdone
    induction hmoves with
    | refl => exact .inl List.mem_cons_self
    | tail _ hmove ih => exact hmove.seen ih
  refine ⟨_, Walk.reaches_of_moves hmoves, hdone, ?_, ?_⟩
  · rcases hseen with hvisited | hsettled
    · rw [Walk.keys, hdone] at hvisited
      cases hvisited
    · exact hsettled
  · rw [settleSymbol_of_new hs hc]
    simp only [hfault]

theorem explores_settleSymbol (hflat : ∀ entry ∈ symbols, entry.2.hasNested = false) (hi : known.inProgress = [])
    (hc : symbols.contains name = true) (hl : Walk.bound symbols ≤ limit) :
    Explores symbols known (Symbol.key name) (known.settleSymbol symbols limit name).known := by
  by_cases hs : Symbol.key name ∈ known.settledKeys
  · rw [settleSymbol_of_settled hs]
    exact explores_of_settled hi hs
  · obtain ⟨last, hreaches, hdone, hkey, heq⟩ := exists_walk hflat hi hs hc hl
    rw [heq]
    exact explores_of_done hflat ((Walk.sound_begun hi hs hc).reaches hreaches) hdone hkey

inductive Filled (symbols : SymbolTable Grammar) : Inference → Prop
  | empty : Filled symbols {}
  | settle {known : Inference} {name : String} {limit : Nat} : Filled symbols known → symbols.contains name = true →
      Walk.bound symbols ≤ limit → Filled symbols (known.settleSymbol symbols limit name).known

theorem Filled.closed (hflat : ∀ entry ∈ symbols, entry.2.hasNested = false) (h : Filled symbols known) :
    known.inProgress = [] ∧ known.RecursiveEmpty ∧ known.Closed symbols := by
  induction h with
  | empty =>
    refine ⟨rfl, ?_, ?_⟩
    · intro key hkey
      cases hkey
    · intro key hkey
      cases hkey
  | settle _ hc hl ih =>
    obtain ⟨hi, hempty, hclosed⟩ := ih
    have hexplores := explores_settleSymbol hflat hi hc hl
    exact ⟨hexplores.idle, hexplores.recursiveEmpty hempty, hexplores.closed hclosed⟩

structure Completes (symbols : SymbolTable Grammar) (key : String) (after : Inference) : Prop where
  recursiveEmpty : after.RecursiveEmpty
  closed : after.Closed symbols
  reached : ∀ other, ReflTransGen symbols.Embeds key other → symbols.contains other = true → other ∈ after.settledKeys

/-- What symbols of the table left behind is what the next one needs. -/
theorem Filled.completes (hflat : ∀ entry ∈ symbols, entry.2.hasNested = false) (h : Filled symbols known)
    {key : String} {after : Inference} (he : Explores symbols known key after) : Completes symbols key after := by
  obtain ⟨-, hempty, hclosed⟩ := h.closed hflat
  exact ⟨he.recursiveEmpty hempty, he.closed hclosed, he.reached hclosed⟩

/-- The walk from a symbol comes to an end. Until then what is in progress is what is visited, and no recursive symbol
is settled with tapes; after it nothing is in progress, and every symbol that the walk could come to is settled. In a
memo that symbols of the same table filled, that is every symbol that this one leads to. -/
theorem settleSymbol_explores (flat : ∀ entry ∈ symbols, ∀ n ∈ entry.2.nodes, n.isNestedTable = false)
    (idle : known.inProgress = []) (named : symbols.contains name = true) (enough : Walk.bound symbols ≤ limit) :
    let start := Walk.begun symbols known (Symbol.key name)
    let settled := known.settleSymbol symbols limit name
    settled.result = .ok () ∧ Explores symbols known (Symbol.key name) settled.known ∧
      (Symbol.key name ∉ known.settledKeys →
        (∀ walk, start.Reaches symbols walk →
          walk.Aligned symbols ∧ (known.RecursiveEmpty → walk.known.RecursiveEmpty) ∧
          (Filled symbols known → walk.known.RecursiveEmpty)) ∧
          ∃ last, start.Reaches symbols last ∧ last.step symbols = .done ∧
            settled = ⟨last.known, last.messages, .ok ()⟩) ∧
      (Filled symbols known →
        known.RecursiveEmpty ∧ known.Closed symbols ∧ Completes symbols (Symbol.key name) settled.known) := by
  intro start settled
  have hflat : ∀ entry ∈ symbols, entry.2.hasNested = false :=
    fun entry he => Grammar.hasNested_eq_false_iff.mpr (flat entry he)
  have hexplores := explores_settleSymbol hflat idle named enough
  have hfilled : Filled symbols known →
      known.RecursiveEmpty ∧ known.Closed symbols ∧ Completes symbols (Symbol.key name) settled.known := by
    intro h
    obtain ⟨-, hempty, hclosed⟩ := h.closed hflat
    exact ⟨hempty, hclosed, h.completes hflat hexplores⟩
  by_cases hs : Symbol.key name ∈ known.settledKeys
  · have heq : settled = ⟨known, [], .ok ()⟩ := settleSymbol_of_settled hs
    exact ⟨by rw [heq], hexplores, absurd hs, hfilled⟩
  · obtain ⟨last, hreaches, hdone, hkey, heq⟩ := exists_walk hflat idle hs named enough
    have heq : settled = ⟨last.known, last.messages, .ok ()⟩ := heq
    have hstep : last.step symbols = .done := by rw [Walk.step, hdone]
    refine ⟨by rw [heq], hexplores, fun _ => ⟨?_, last, hreaches, hstep, heq⟩, hfilled⟩
    intro walk hwalk
    have hsound := (Walk.sound_begun idle hs named).reaches hwalk
    exact ⟨hsound.aligned, hsound.recursiveEmpty, fun h => hsound.recursiveEmpty (h.closed hflat).2.1⟩

/-- Two cycles with one symbol in common, a target twice, and one that is unknown, all settled before the symbol
outside. -/
theorem settleSymbol_explores_two_cycles :
    let symbols : SymbolTable Grammar :=
      [("a", .combine {} .sequence [.embed {} "B", .embed {} "nowhere", .embed {} "c", .embed {} "b"]),
        ("b", .embed {} "a"), ("c", .relabel {} (.rename "text" "gloss") (.embed {} "A")), ("d", .embed {} "c")]
    let known := (settleSymbol symbols (Walk.bound symbols) {} "b").known
    let start := Walk.begun symbols known (Symbol.key "D")
    let settled := known.settleSymbol symbols (Walk.bound symbols) "D"
    (∀ entry ∈ symbols, ∀ n ∈ entry.2.nodes, n.isNestedTable = false) ∧ symbols.contains "D" = true ∧
      Filled symbols known ∧ known.settledKeys = ["b", "a", "c"] ∧ settled.known.settledKeys = ["d", "b", "a", "c"] ∧
      Explores symbols known (Symbol.key "D") settled.known ∧ Completes symbols (Symbol.key "D") settled.known ∧
      (∀ walk, start.Reaches symbols walk → walk.Aligned symbols ∧ walk.known.RecursiveEmpty) ∧
      ∃ last, start.Reaches symbols last ∧ last.step symbols = .done ∧
        settled = ⟨last.known, last.messages, .ok ()⟩ := by
  intro symbols known start settled
  have flat : ∀ entry ∈ symbols, ∀ n ∈ entry.2.nodes, n.isNestedTable = false := by decide +kernel
  have named : symbols.contains "D" = true := by decide +kernel
  have filled : Filled symbols known := .settle .empty (by decide +kernel) (Nat.le_refl _)
  have idle : known.inProgress = [] := by decide +kernel
  have unsettled : Symbol.key "D" ∉ known.settledKeys := by decide +kernel
  obtain ⟨-, hexplores, hwalk, hfilled⟩ := settleSymbol_explores flat idle named (Nat.le_refl _)
  obtain ⟨hkept, hlast⟩ := hwalk unsettled
  refine ⟨flat, named, filled, by decide +kernel, by decide +kernel, hexplores, (hfilled filled).2.2, ?_, hlast⟩
  intro walk hreaches
  exact ⟨(hkept walk hreaches).1, (hkept walk hreaches).2.2 filled⟩

end Inference

/-! ## Faults -/

namespace Walk

variable {symbols : SymbolTable Grammar} {walk : Walk} {fault : Fault}

theorem fault_of_run {n : Nat} (h : (walk.run symbols n).2 = some fault) :
    fault = .unflattenedCollection Inference.stage := by
  induction n generalizing walk with
  | zero => cases h
  | succ n ih =>
    unfold run at h
    split at h
    · exact ih h
    · cases h
    · next hstep =>
      cases h
      exact (step_fault hstep).1

end Walk

namespace Inference

variable {symbols : SymbolTable Grammar} {fault : Fault}

theorem fault_of_settleSymbol {known : Inference} {limit : Nat} {name : String}
    (h : (known.settleSymbol symbols limit name).result = .error fault) : fault = .unflattenedCollection stage := by
  simp only [settleSymbol] at h
  split at h
  · cases h
  · split at h
    · next hrun =>
      cases h
      exact Walk.fault_of_run hrun
    · cases h

theorem fault_of_settleSymbols {known : Inference} {limit : Nat} {names : List String}
    (h : (known.settleSymbols symbols limit names).result = .error fault) : fault = .unflattenedCollection stage := by
  induction names generalizing known with
  | nil => cases h
  | cons name names ih =>
    simp only [settleSymbols] at h
    split at h
    · next hfirst =>
      cases h
      exact fault_of_settleSymbol hfirst
    · exact ih h

end Inference

namespace Grammar

variable {g : Grammar} {fault : Fault}

theorem Incident.fault_of_outcome {α : Type} {met : List Incident} {made : α} (h : outcome met made = .error fault) :
    fault = .unflattenedCollection Inference.stage := by
  induction met with
  | nil => cases h
  | cons first rest ih =>
    cases first with
    | repair message => exact ih h
    | collection =>
      cases h
      rfl

theorem fault_of_inferTapes (h : g.inferTapes.1 = .error fault) : fault = .unflattenedCollection Inference.stage := by
  unfold inferTapes Inference.annotate at h
  split at h
  · dsimp only at h
    split at h
    · next hsettle =>
      cases h
      exact Inference.fault_of_settleSymbols hsettle
    · exact Incident.fault_of_outcome h
  · exact Incident.fault_of_outcome h

/-- A table all of whose symbols are settled has no collection in it. -/
theorem hasNested_of_settles {symbols : SymbolTable Grammar} {known : Inference} (distinct : symbols.WellFormed)
    (h : known.Settles symbols) : ∀ entry ∈ symbols, entry.2.hasNested = false := by
  intro entry he
  have hget : symbols.get? entry.1 = some entry.2 := by
    rw [SymbolTable.get?, SymbolTable.entry?_of_mem distinct he rfl]
    rfl
  exact h.flat entry.1 entry.2 hget

theorem exists_inferTapes_table_iff {m : Mark} {symbols : SymbolTable Grammar} (distinct : symbols.WellFormed) :
    (∃ made, (table m .flat symbols).inferTapes.1 = .ok made) ↔ (table m .flat symbols).hasNested = false := by
  rw [hasNested_flat]
  constructor
  · rintro ⟨made, hmade⟩
    exact hasNested_of_settles distinct (Inference.annotate_table hmade).settles
  · intro hflat
    exact Inference.annotate_table_ok hflat

/-- Inference has a result exactly of a grammar without collections. A root that is no flat table is annotated with
nothing settled, and then every node is looked at. -/
theorem exists_inferTapes_iff (distinct : g.members.WellFormed) :
    (∃ made, g.inferTapes.1 = .ok made) ↔ g.hasNested = false := by
  have hplain : (∃ made, Incident.outcome (g.incidents {}) (g.annotate {}) = .ok made) ↔ g.hasNested = false := by
    simp only [Incident.outcome_eq_ok_iff, exists_and_left, exists_eq', and_true, collection_mem_incidents,
      Bool.not_eq_true]
  cases g with
  | table m scoping entries =>
    cases scoping with
    | flat => exact exists_inferTapes_table_iff distinct
    | nested => exact hplain
  | _ => exact hplain

/-- Inference fails exactly if there is a collection, wherever it stands, and nothing else is a fault to it. Of a flat
table, no fault is left to annotation. -/
theorem inferTapes_fails_iff (g : Grammar) (distinct : g.members.WellFormed) :
    (∀ fault, g.inferTapes.1 = .error fault ↔
      fault = .unflattenedCollection Inference.stage ∧ ∃ n ∈ g.nodes, n.isNestedTable = true) ∧
    ∀ m symbols, g = table m .flat symbols → (Inference.settleTable symbols {}).result = .ok () →
      ∃ made, g.inferTapes.1 = .ok made := by
  refine ⟨?_, ?_⟩
  · intro fault
    rw [← hasNested_iff]
    constructor
    · intro h
      refine ⟨fault_of_inferTapes h, ?_⟩
      by_contra hflat
      obtain ⟨made, hmade⟩ := (exists_inferTapes_iff distinct).mpr (by simpa using hflat)
      rw [h] at hmade
      cases hmade
    · rintro ⟨rfl, hnested⟩
      cases hresult : g.inferTapes.1 with
      | ok made =>
        rw [(exists_inferTapes_iff distinct).mp ⟨made, hresult⟩] at hnested
        cases hnested
      | error fault => rw [fault_of_inferTapes hresult]
  · rintro m symbols rfl hsettled
    exact Inference.annotate_table_ok (hasNested_of_settles distinct (Inference.settleTable_settles hsettled))

/-- A collection under a rename that would be dropped, in a symbol that embeds itself and that no other embeds. -/
theorem inferTapes_fails_iff_recursive :
    let g : Grammar := .table {} .flat [("b", .literal {} "text" "x"),
      ("A", .combine {} .sequence
        [.embed {} "a", .relabel {} (.rename "root" "gloss") (.table {} .flat [("c", .table {} .nested [])])])]
    g.members.WellFormed ∧ g.inferTapes.1 = .error (.unflattenedCollection Inference.stage) := by
  intro g
  have distinct : g.members.WellFormed := by decide +kernel
  have nested : ∃ n ∈ g.nodes, n.isNestedTable = true := by decide +kernel
  exact ⟨distinct, ((inferTapes_fails_iff g distinct).1 _).mpr ⟨rfl, nested⟩⟩

end Grammar

end SheetGrammar
