import Mathlib.Algebra.Order.BigOperators.Group.List
import Mathlib.Algebra.Order.Ring.Nat
import Mathlib.Logic.Relation
import SheetGrammar.Proofs.GrammarNodes

/-!
The walk along embeds as a machine. `Walk.Moves` says once what a step can do: pass a target that is settled or
unknown, close a cycle at a target in progress, enter a new target, or settle the innermost symbol. `Progress` is the
walk together with the names that are still to come, so that the settling of a whole table is one run of one machine.

- `Progress.Reached`: the settling of a table stands so at some time.
- `moves_of_step`, `Moves.aligned`: a step makes one of the four moves, and each keeps the list of symbols in progress
  in line with the visits, without repetition and apart from what is settled.
- `Moves.left_lt`: every move uses up some of the work that is left, which is never more than `Walk.bound`.
- `settleTable_reached`: settling that ends well ends the run; `settleTable_ok`: without collections it ends well.
-/

namespace SheetGrammar

/-- The keys that the definition of a symbol embeds, in the order of the text. -/
def SymbolTable.targets (symbols : SymbolTable Grammar) (key : String) : List String :=
  ((symbols.get? key).map Grammar.embeds).getD []

theorem SymbolTable.targets_of_get? {symbols : SymbolTable Grammar} {key : String} {g : Grammar}
    (h : symbols.get? key = some g) : symbols.targets key = g.embeds := by
  rw [targets, h]; rfl

theorem SymbolTable.get?_of_mem_targets {symbols : SymbolTable Grammar} {key target : String}
    (h : target ∈ symbols.targets key) : ∃ g, symbols.get? key = some g ∧ target ∈ g.embeds := by
  unfold targets at h
  cases hg : symbols.get? key with
  | none => rw [hg] at h; cases h
  | some g => rw [hg] at h; exact ⟨g, rfl, h⟩

theorem SymbolTable.key_of_mem_targets {symbols : SymbolTable Grammar} {key target : String}
    (h : target ∈ symbols.targets key) : Symbol.key target = target := by
  obtain ⟨g, -, hg⟩ := get?_of_mem_targets h
  exact Grammar.key_of_mem_embeds hg

namespace Inference

variable {known : Inference} {key : String}

def settledKeys (known : Inference) : List String := known.settled.map (·.1)

theorem isSome_tapesOfKey? : (known.tapesOfKey? key).isSome = true ↔ key ∈ known.settledKeys := by
  simp only [tapesOfKey?, settledKeys, List.lookup_isSome_iff, List.mem_map, beq_iff_eq]
  exact ⟨fun ⟨e, he, hk⟩ => ⟨e, he, hk.symm⟩, fun ⟨e, he, hk⟩ => ⟨e, he, hk.symm⟩⟩

theorem tapesOfKey?_eq_none : known.tapesOfKey? key = none ↔ key ∉ known.settledKeys := by
  rw [← isSome_tapesOfKey?]; simp

/-- The symbols in progress from `key` on. -/
def members (known : Inference) (key : String) : List String := known.inProgress.dropWhile (· ≠ key)

def fresh (known : Inference) (key : String) : List String := (known.members key).filter (· ∉ known.recursive)

theorem closeCycle_eq (symbols : SymbolTable Grammar) (key : String) (known : Inference) :
    known.closeCycle symbols key =
      ({ known with recursive := (known.fresh key).reverse ++ known.recursive },
        (known.fresh key).map (recursionMessage symbols (cyclePath symbols (known.members key)))) := by
  unfold closeCycle
  simp only []
  split
  · rename_i h
    rw [fresh, members, h]; rfl
  · rw [fresh, members]

@[simp] theorem settled_closeCycle (symbols : SymbolTable Grammar) (key : String) (known : Inference) :
    (known.closeCycle symbols key).1.settled = known.settled := by
  rw [closeCycle_eq]

@[simp] theorem settledKeys_closeCycle (symbols : SymbolTable Grammar) (key : String) (known : Inference) :
    (known.closeCycle symbols key).1.settledKeys = known.settledKeys := by
  rw [closeCycle_eq]; rfl

theorem mem_recursive_closeCycle {symbols : SymbolTable Grammar} {k : String} :
    k ∈ (known.closeCycle symbols key).1.recursive ↔ k ∈ known.members key ∨ k ∈ known.recursive := by
  rw [closeCycle_eq]
  simp only [fresh, List.mem_append, List.mem_reverse, List.mem_filter, decide_eq_true_eq]
  by_cases h : k ∈ known.recursive <;> simp [h]

/-- In an in-progress list without repetition, the members of a cycle are its target and what follows. -/
theorem members_eq {before after : List String} (h : known.inProgress = before ++ key :: after) (hn : key ∉ before) :
    known.members key = key :: after := by
  rw [members, h, List.dropWhile_append_of_pos]
  · simp
  · intro k hk
    have : k ≠ key := fun he => hn (he ▸ hk)
    simpa using this

theorem enter_of_not_mem (h : key ∉ known.inProgress) :
    known.enter key = { known with inProgress := known.inProgress ++ [key] } := by
  rw [enter, if_neg h]

@[simp] theorem settledKeys_enter (known : Inference) (key : String) :
    (known.enter key).settledKeys = known.settledKeys := by
  unfold enter; split <;> rfl

@[simp] theorem recursive_enter (known : Inference) (key : String) : (known.enter key).recursive = known.recursive := by
  unfold enter; split <;> rfl

@[simp] theorem settled_enter (known : Inference) (key : String) : (known.enter key).settled = known.settled := by
  unfold enter; split <;> rfl

end Inference

/-! ## What a step can do -/

inductive Walk.Moves (symbols : SymbolTable Grammar) : Walk → Walk → Prop
  /-- The next target is settled already, or not a symbol of the table. -/
  | pass {known : Inference} {key target : String} {pending : List String} {outer : List Visit}
      {messages : List Message} :
      target ∈ known.settledKeys ∨ target ∉ known.inProgress ∧ symbols.contains target = false →
      Moves symbols ⟨known, ⟨key, target :: pending⟩ :: outer, messages⟩ ⟨known, ⟨key, pending⟩ :: outer, messages⟩
  /-- The next target is in progress. -/
  | close {known : Inference} {key target : String} {pending : List String} {outer : List Visit}
      {messages : List Message} :
      target ∉ known.settledKeys → target ∈ known.inProgress →
      Moves symbols ⟨known, ⟨key, target :: pending⟩ :: outer, messages⟩
        ⟨(known.closeCycle symbols target).1, ⟨key, pending⟩ :: outer, messages ++ (known.closeCycle symbols target).2⟩
  /-- The next target is new. -/
  | enter {known : Inference} {key target : String} {pending : List String} {outer : List Visit}
      {messages : List Message} :
      target ∉ known.settledKeys → target ∉ known.inProgress → symbols.contains target = true →
      Moves symbols ⟨known, ⟨key, target :: pending⟩ :: outer, messages⟩
        ⟨known.enter target, ⟨target, symbols.targets target⟩ :: ⟨key, pending⟩ :: outer, messages⟩
  /-- All targets of the innermost symbol are dealt with. -/
  | settle {known : Inference} {key : String} {outer : List Visit} {messages : List Message} {g : Grammar} :
      symbols.get? key = some g → g.hasNested = false →
      Moves symbols ⟨known, ⟨key, []⟩ :: outer, messages⟩ ⟨known.settle key g, outer, messages⟩

def Walk.keys (walk : Walk) : List String := walk.visits.map Visit.key

/-- The visits are what is in progress: symbols of the table, each once and none settled, with some of their targets to
come. -/
structure Walk.Aligned (symbols : SymbolTable Grammar) (walk : Walk) : Prop where
  inProgress : walk.known.inProgress = walk.keys.reverse
  nodup : walk.keys.Nodup
  unsettled : ∀ key ∈ walk.keys, key ∉ walk.known.settledKeys
  contained : ∀ key ∈ walk.keys, symbols.contains key = true
  canonical : ∀ key ∈ walk.keys, Symbol.key key = key
  pending : ∀ v ∈ walk.visits, v.pending <:+ symbols.targets v.key

namespace Walk

variable {symbols : SymbolTable Grammar} {walk next : Walk}

theorem Aligned.mem_inProgress (ha : walk.Aligned symbols) {key : String} :
    key ∈ walk.known.inProgress ↔ key ∈ walk.keys := by
  rw [ha.inProgress, List.mem_reverse]

/-- The members of a cycle are its target and the visits inside it. -/
theorem Aligned.members_eq (ha : walk.Aligned symbols) {target : String} {inner outer : List String}
    (h : walk.keys = inner ++ target :: outer) : walk.known.members target = target :: inner.reverse := by
  have hn := ha.nodup
  rw [h] at hn
  have hout : target ∉ outer.reverse := fun hm =>
    (List.nodup_cons.mp (List.nodup_append.mp hn).2.1).1 (List.mem_reverse.mp hm)
  refine Inference.members_eq ?_ hout
  rw [ha.inProgress, h]
  simp

/-- The innermost visit stands last in the list of what is in progress. -/
theorem Aligned.inProgress_eq {v : Visit} {outer : List Visit} (ha : walk.Aligned symbols)
    (hv : walk.visits = v :: outer) : walk.known.inProgress = (outer.map Visit.key).reverse ++ [v.key] := by
  rw [ha.inProgress, keys, hv, List.map_cons, List.reverse_cons]

theorem Aligned.exists_inner (ha : walk.Aligned symbols) {target : String} (h : target ∈ walk.known.inProgress) :
    ∃ inner outer, walk.keys = inner ++ target :: outer :=
  List.append_of_mem (ha.mem_inProgress.mp h)

theorem moves_of_step (ha : walk.Aligned symbols) (h : walk.step symbols = .next next) : walk.Moves symbols next := by
  obtain ⟨known, visits, messages⟩ := walk
  match visits with
  | [] => simp [step] at h
  | ⟨key, []⟩ :: outer =>
    obtain ⟨g, hg⟩ := SymbolTable.exists_get? (ha.contained key (List.mem_cons_self ..))
    simp only [step, hg] at h
    split at h
    · cases h
    · rename_i hn
      cases h
      exact .settle hg (by simpa using hn)
  | ⟨key, target :: pending⟩ :: outer =>
    simp only [step, Inference.isSome_tapesOfKey?] at h
    split at h
    · rename_i hs; cases h; exact .pass (.inl hs)
    · rename_i hs
      split at h
      · rename_i hp; cases h; exact .close hs hp
      · rename_i hp
        split at h
        · rename_i hc; cases h; exact .enter hs hp hc
        · rename_i hc; cases h; exact .pass (.inr ⟨hp, by simpa using hc⟩)

theorem step_of_moves (h : walk.Moves symbols next) : walk.step symbols = .next next := by
  cases h with
  | @pass known key target pending outer messages h =>
    by_cases hs : target ∈ known.settledKeys
    · simp only [step, Inference.isSome_tapesOfKey?.mpr hs, if_true]
    · obtain ⟨hp, hc⟩ := h.resolve_left hs
      simp [step, Inference.tapesOfKey?_eq_none.mpr hs, hp, hc]
  | close hs hp => simp [step, Inference.tapesOfKey?_eq_none.mpr hs, hp]
  | enter hs hp hc =>
    simp only [step, Inference.tapesOfKey?_eq_none.mpr hs, hp, hc]
    rfl
  | settle hg hflat => simp [step, hg, hflat]

/-- There is one way to go on. -/
theorem Moves.unique {other : Walk} (h : walk.Moves symbols next) (h' : walk.Moves symbols other) : next = other := by
  have := (step_of_moves h).symm.trans (step_of_moves h')
  cases this
  rfl

theorem step_done (h : walk.step symbols = .done) : walk.visits = [] := by
  unfold step at h
  split at h
  · assumption
  · split at h
    · split at h <;> cases h
    · cases h
  · simp only [] at h
    repeat' split at h
    all_goals cases h

/-- A fault is a collection in the definition of a symbol. -/
theorem step_fault {fault : Fault} (h : walk.step symbols = .fault fault) :
    fault = .unflattenedCollection Inference.stage ∧ ∃ key g, symbols.get? key = some g ∧ g.hasNested = true := by
  unfold step at h
  split at h
  · cases h
  · rename_i key outer _
    split at h
    · rename_i g hg
      split at h
      · rename_i hn
        cases h
        exact ⟨rfl, key, g, hg, hn⟩
      · cases h
    · cases h
  · simp only [] at h
    repeat' split at h
    all_goals cases h

theorem Aligned.mem_targets (ha : walk.Aligned symbols) {v : Visit} (hv : v ∈ walk.visits) {target : String}
    (ht : target ∈ v.pending) : target ∈ symbols.targets v.key :=
  (ha.pending v hv).subset ht

theorem Moves.aligned (ha : walk.Aligned symbols) (h : walk.Moves symbols next) : next.Aligned symbols := by
  -- the innermost visit has one target less; all else of the visits stays
  have shorter : ∀ {key target pending} {outer : List Visit}, walk.visits = ⟨key, target :: pending⟩ :: outer →
      ∀ v ∈ (⟨key, pending⟩ :: outer : List Visit), v.pending <:+ symbols.targets v.key := by
    intro key target pending outer hv v hm
    rcases List.mem_cons.mp hm with rfl | hm
    · exact (List.suffix_cons target pending).trans
        (ha.pending ⟨key, target :: pending⟩ (by rw [hv]; exact List.mem_cons_self ..))
    · exact ha.pending v (by rw [hv]; exact List.mem_cons_of_mem _ hm)
  cases h with
  | pass _ => exact ⟨ha.inProgress, ha.nodup, ha.unsettled, ha.contained, ha.canonical, shorter rfl⟩
  | close _ _ =>
    rw [Inference.closeCycle_eq]
    exact ⟨ha.inProgress, ha.nodup, ha.unsettled, ha.contained, ha.canonical, shorter rfl⟩
  | @enter known key target pending outer messages hs ht hct =>
    have hnew : target ∉ key :: outer.map Visit.key := fun h => ht (ha.mem_inProgress.mpr h)
    have hmem : target ∈ symbols.targets key := ha.mem_targets (List.mem_cons_self ..) (List.mem_cons_self ..)
    rw [Inference.enter_of_not_mem ht]
    refine ⟨?_, List.nodup_cons.mpr ⟨hnew, ha.nodup⟩, List.forall_mem_cons.mpr ⟨hs, ha.unsettled⟩,
      List.forall_mem_cons.mpr ⟨hct, ha.contained⟩,
      List.forall_mem_cons.mpr ⟨SymbolTable.key_of_mem_targets hmem, ha.canonical⟩,
      List.forall_mem_cons.mpr ⟨List.suffix_refl _, shorter rfl⟩⟩
    show known.inProgress ++ [target] = (target :: key :: outer.map Visit.key).reverse
    rw [ha.inProgress_eq rfl]
    simp
  | @settle known key outer messages g hg hflat =>
    obtain ⟨hnew, hn⟩ := List.nodup_cons.mp ha.nodup
    refine ⟨?_, hn, ?_, fun k h => ha.contained k (List.mem_cons_of_mem _ h), fun k h =>
      ha.canonical k (List.mem_cons_of_mem _ h),
      fun v h => ha.pending v (List.mem_cons_of_mem _ h)⟩
    · show known.inProgress.dropLast = (outer.map Visit.key).reverse
      rw [ha.inProgress_eq rfl, List.dropLast_concat]
    · intro k h hm
      rcases List.mem_cons.mp hm with rfl | hm
      · exact hnew h
      · exact ha.unsettled k (List.mem_cons_of_mem _ h) hm

/-- What is settled stays settled. -/
theorem Moves.settledKeys_subset (h : walk.Moves symbols next) {key : String} (hk : key ∈ walk.known.settledKeys) :
    key ∈ next.known.settledKeys := by
  cases h with
  | pass _ => exact hk
  | close _ _ => simpa using hk
  | enter _ _ _ => simpa using hk
  | settle _ _ => exact List.mem_cons_of_mem _ hk

/-- A symbol that is visited is visited until it is settled. -/
theorem Moves.mem_keys_or_settled (h : walk.Moves symbols next) {key : String} (hk : key ∈ walk.keys) :
    key ∈ next.keys ∨ key ∈ next.known.settledKeys := by
  cases h with
  | pass _ => exact .inl hk
  | close _ _ => exact .inl hk
  | enter _ _ _ => exact .inl (List.mem_cons_of_mem _ hk)
  | settle _ _ =>
    rcases List.mem_cons.mp hk with rfl | hk
    · exact .inr (List.mem_cons_self ..)
    · exact .inl hk

/-- The symbol was visited or still is. -/
def Seen (walk : Walk) (key : String) : Prop := key ∈ walk.keys ∨ key ∈ walk.known.settledKeys

theorem Moves.seen (h : walk.Moves symbols next) {key : String} (hk : walk.Seen key) : next.Seen key := by
  rcases hk with hk | hk
  · exact h.mem_keys_or_settled hk
  · exact .inr (h.settledKeys_subset hk)

/-! ## The work that is left -/

/-- The steps that an entry takes if its symbol is still to be entered: one for each embed, and one to settle it. -/
def entryWork (known : Inference) (entry : String × Grammar) : Nat :=
  if Symbol.key entry.1 ∈ known.settledKeys ∨ Symbol.key entry.1 ∈ known.inProgress then 0
    else entry.2.embeds.length + 1

def workAhead (symbols : SymbolTable Grammar) (known : Inference) : Nat := (symbols.map (entryWork known)).sum

def left (symbols : SymbolTable Grammar) (walk : Walk) : Nat :=
  workAhead symbols walk.known + (walk.visits.map fun v => v.pending.length + 1).sum

theorem bound_eq_sum (symbols : SymbolTable Grammar) :
    bound symbols = (symbols.map fun entry => entry.2.embeds.length + 1).sum := by
  unfold bound
  induction symbols with
  | nil => rfl
  | cons entry rest ih => rw [List.foldr_cons, ih, List.map_cons, List.sum_cons]

theorem workAhead_le_bound (symbols : SymbolTable Grammar) (known : Inference) :
    workAhead symbols known ≤ bound symbols := by
  rw [bound_eq_sum]
  refine List.sum_le_sum fun entry _ => ?_
  unfold entryWork
  split <;> omega

theorem entryWork_enter_le {known : Inference} {key : String} (hp : key ∉ known.inProgress) (entry : String × Grammar) :
    entryWork (known.enter key) entry ≤ entryWork known entry := by
  rw [Inference.enter_of_not_mem hp]
  unfold entryWork
  split
  · omega
  · rename_i h
    have : ¬ (Symbol.key entry.1 ∈ known.settledKeys ∨ Symbol.key entry.1 ∈ known.inProgress) := fun h' =>
      h (h'.imp id fun h' => List.mem_append_left _ h')
    rw [if_neg this]

/-- To enter a symbol of the table takes its work out of what is ahead. -/
theorem workAhead_enter {known : Inference} {key : String} (hk : Symbol.key key = key) (hs : key ∉ known.settledKeys)
    (hp : key ∉ known.inProgress) (hc : symbols.contains key = true) :
    workAhead symbols (known.enter key) + ((symbols.targets key).length + 1) ≤ workAhead symbols known := by
  obtain ⟨g, hg⟩ := SymbolTable.exists_get? hc
  rw [SymbolTable.targets_of_get? hg]
  obtain ⟨entry, hmem, hkey, rfl⟩ := SymbolTable.mem_of_get? hg
  have after : entryWork (known.enter key) entry = 0 := by
    rw [Inference.enter_of_not_mem hp]
    exact if_pos (.inr (List.mem_append_right _ (List.mem_singleton.mpr (hkey.trans hk))))
  have before : entryWork known entry = entry.2.embeds.length + 1 := by
    unfold entryWork
    rw [hkey, hk]
    exact if_neg (by simp [hs, hp])
  obtain ⟨front, back, rfl⟩ := List.append_of_mem hmem
  have hfront := List.sum_le_sum (l := front) fun e _ => entryWork_enter_le hp e
  have hback := List.sum_le_sum (l := back) fun e _ => entryWork_enter_le hp e
  simp only [workAhead, List.map_append, List.map_cons, List.sum_append, List.sum_cons]
  omega

theorem workAhead_settle {known : Inference} {key : String} {g : Grammar} {before : List String}
    (hi : known.inProgress = before ++ [key]) : workAhead symbols (known.settle key g) = workAhead symbols known := by
  refine congrArg List.sum (List.map_congr_left fun entry _ => ?_)
  have : (Symbol.key entry.1 ∈ (known.settle key g).settledKeys ∨
        Symbol.key entry.1 ∈ (known.settle key g).inProgress) ↔
      (Symbol.key entry.1 ∈ known.settledKeys ∨ Symbol.key entry.1 ∈ known.inProgress) := by
    simp only [Inference.settle, Inference.settledKeys, hi, List.map_cons, List.mem_cons, List.dropLast_concat,
      List.mem_append, List.not_mem_nil, or_false]
    rw [or_assoc, or_left_comm, or_comm (a := Symbol.key entry.1 = key)]
  unfold entryWork
  simp only [this]

/-- Every move uses up some of the work that is left. -/
theorem Moves.left_lt (ha : walk.Aligned symbols) (h : walk.Moves symbols next) :
    next.left symbols < walk.left symbols := by
  cases h with
  | pass _ => simp only [left, List.map_cons, List.sum_cons, List.length_cons]; omega
  | @close known key target pending outer messages hs hp =>
    rw [Inference.closeCycle_eq]
    have : ∀ r, workAhead symbols { known with recursive := r } = workAhead symbols known := fun _ => rfl
    simp only [left, List.map_cons, List.sum_cons, List.length_cons, this]
    omega
  | @enter known key target pending outer messages hs hp hc =>
    have hmem := ha.mem_targets (List.mem_cons_self ..) (List.mem_cons_self ..)
    have := workAhead_enter (SymbolTable.key_of_mem_targets hmem) hs hp hc
    simp only [left, List.map_cons, List.sum_cons, List.length_cons]
    omega
  | @settle known key outer messages g hg hflat =>
    simp only [left, List.map_cons, List.sum_cons, workAhead_settle (ha.inProgress_eq rfl)]
    omega

theorem visits_eq_nil_of_left (h : walk.left symbols = 0) : walk.visits = [] := by
  cases hv : walk.visits with
  | nil => rfl
  | cons v outer => simp only [left, hv, List.map_cons, List.sum_cons] at h; omega

/-- A run with enough steps that meets no fault ends with no symbol in progress. -/
theorem run_spec {n : Nat} (ha : walk.Aligned symbols) (hn : walk.left symbols ≤ n)
    (hf : (walk.run symbols n).2 = none) :
    Relation.ReflTransGen (Moves symbols) walk (walk.run symbols n).1 ∧ (walk.run symbols n).1.visits = [] := by
  induction n generalizing walk with
  | zero => exact ⟨.refl, visits_eq_nil_of_left (Nat.le_zero.mp hn)⟩
  | succ n ih =>
    cases hstep : walk.step symbols with
    | next next =>
      have hm := moves_of_step ha hstep
      simp only [run, hstep] at hf ⊢
      have hlt := hm.left_lt ha
      obtain ⟨hr, hv⟩ := ih (hm.aligned ha) (by omega) hf
      exact ⟨.head hm hr, hv⟩
    | done => simp only [run, hstep]; exact ⟨.refl, step_done hstep⟩
    | fault fault => simp [run, hstep] at hf

/-- No fault is met in a table without collections. -/
theorem run_snd_eq_none (hflat : ∀ entry ∈ symbols, entry.2.hasNested = false) (n : Nat) :
    (walk.run symbols n).2 = none := by
  induction n generalizing walk with
  | zero => rfl
  | succ n ih =>
    unfold run
    split
    · exact ih
    · rfl
    · rename_i fault hstep
      obtain ⟨-, key, g, hg, hn⟩ := step_fault hstep
      obtain ⟨entry, he, -, rfl⟩ := SymbolTable.mem_of_get? hg
      rw [hflat entry he] at hn
      cases hn

end Walk

/-! ## The settling of a whole table -/

def Walk.begun (symbols : SymbolTable Grammar) (known : Inference) (key : String) : Walk :=
  ⟨known.enter key, [⟨key, symbols.targets key⟩], []⟩

theorem Inference.settleSymbol_of_settled {known : Inference} {symbols : SymbolTable Grammar} {name : String}
    {limit : Nat} (hs : Symbol.key name ∈ known.settledKeys) :
    known.settleSymbol symbols limit name = ⟨known, [], .ok ()⟩ := by
  have h := Inference.isSome_tapesOfKey?.mpr hs
  simp only [settleSymbol, h, Bool.true_or, if_true]

theorem Inference.settleSymbol_of_new {known : Inference} {symbols : SymbolTable Grammar} {name : String} {limit : Nat}
    (hs : Symbol.key name ∉ known.settledKeys) (hc : symbols.contains name = true) :
    known.settleSymbol symbols limit name =
      let run := (Walk.begun symbols known (Symbol.key name)).run symbols limit
      ⟨run.1.known, run.1.messages, match run.2 with | some fault => .error fault | none => .ok ()⟩ := by
  have h := Inference.tapesOfKey?_eq_none.mpr hs
  simp only [settleSymbol, h, Option.isSome_none, SymbolTable.contains_key, hc, Bool.not_true, Bool.or_self,
    Bool.false_eq_true, if_false]
  rfl

structure Progress where
  names : List String
  reported : List Message
  walk : Walk

inductive Progress.Moves (symbols : SymbolTable Grammar) : Progress → Progress → Prop
  | walk {names : List String} {reported : List Message} {walk next : Walk} :
      walk.Moves symbols next → Moves symbols ⟨names, reported, walk⟩ ⟨names, reported, next⟩
  /-- The walk from a name that is not settled. -/
  | start {name : String} {names : List String} {reported messages : List Message} {known : Inference} :
      Symbol.key name ∉ known.settledKeys → symbols.contains name = true →
      Moves symbols ⟨name :: names, reported, ⟨known, [], messages⟩⟩
        ⟨names, reported ++ messages, .begun symbols known (Symbol.key name)⟩
  | skip {name : String} {names : List String} {reported messages : List Message} {known : Inference} :
      Symbol.key name ∈ known.settledKeys →
      Moves symbols ⟨name :: names, reported, ⟨known, [], messages⟩⟩ ⟨names, reported, ⟨known, [], messages⟩⟩

namespace Progress

variable {symbols : SymbolTable Grammar} {p : Progress}

theorem Moves.seen {q : Progress} (h : Moves symbols p q) {key : String} (hk : p.walk.Seen key) : q.walk.Seen key := by
  cases h with
  | walk hw => exact hw.seen hk
  | start _ _ =>
    rcases hk with hk | hk
    · cases hk
    · exact .inr (by simpa [Walk.begun] using hk)
  | skip _ => exact hk

theorem Moves.unique {q r : Progress} (h : Moves symbols p q) (h' : Moves symbols p r) : q = r := by
  cases h with
  | walk hw =>
    cases h' with
    | walk hw' => rw [hw.unique hw']
    | start _ _ => cases hw
    | skip _ => cases hw
  | start hs _ =>
    cases h' with
    | walk hw' => cases hw'
    | start _ _ => rfl
    | skip hs' => exact absurd hs' hs
  | skip hs =>
    cases h' with
    | walk hw' => cases hw'
    | start hs' _ => exact absurd hs hs'
    | skip _ => rfl

def initial (symbols : SymbolTable Grammar) : Progress := ⟨symbols.names, [], ⟨{}, [], []⟩⟩

def Reached (symbols : SymbolTable Grammar) (p : Progress) : Prop :=
  Relation.ReflTransGen (Moves symbols) (initial symbols) p

theorem aligned_begun {known : Inference} {name : String} (hi : known.inProgress = [])
    (hs : Symbol.key name ∉ known.settledKeys) (hc : symbols.contains name = true) :
    (Walk.begun symbols known (Symbol.key name)).Aligned symbols := by
  refine ⟨?_, by simp [Walk.begun, Walk.keys], by simpa [Walk.begun, Walk.keys] using hs,
    by simpa [Walk.begun, Walk.keys] using hc, by simp [Walk.begun, Walk.keys], by simp [Walk.begun]⟩
  rw [Walk.begun, Inference.enter_of_not_mem (by rw [hi]; exact List.not_mem_nil)]
  simp [hi, Walk.keys]

theorem Reached.aligned (h : Reached symbols p) : p.walk.Aligned symbols := by
  induction h with
  | refl => exact ⟨rfl, List.nodup_nil, by simp [initial, Walk.keys], by simp [initial, Walk.keys],
      by simp [initial, Walk.keys], by simp [initial]⟩
  | tail _ hm ih =>
    cases hm with
    | walk hw => exact hw.aligned ih
    | start hs hc => exact aligned_begun ih.inProgress hs hc
    | skip _ => exact ih

theorem Reached.walk {names : List String} {reported : List Message} {walk next : Walk}
    (h : Reached symbols ⟨names, reported, walk⟩) (hw : Relation.ReflTransGen (Walk.Moves symbols) walk next) :
    Reached symbols ⟨names, reported, next⟩ := by
  induction hw with
  | refl => exact h
  | tail _ hm ih => exact .tail ih (.walk hm)

theorem left_begun_le {known : Inference} {name : String} (hi : known.inProgress = [])
    (hs : Symbol.key name ∉ known.settledKeys) (hc : symbols.contains name = true) :
    (Walk.begun symbols known (Symbol.key name)).left symbols ≤ Walk.bound symbols := by
  have hp : Symbol.key name ∉ known.inProgress := by rw [hi]; exact List.not_mem_nil
  have henter := Walk.workAhead_enter (Symbol.key_key name) hs hp (by simpa using hc)
  have hbound := Walk.workAhead_le_bound symbols known
  simp only [Walk.begun, Walk.left, List.map_cons, List.map_nil, List.sum_cons, List.sum_nil]
  omega

/-- The settling of one symbol is a stretch of the run. -/
theorem Reached.settleSymbol {name : String} {names : List String} {reported messages : List Message}
    {known : Inference} {limit : Nat} (h : Reached symbols ⟨name :: names, reported, ⟨known, [], messages⟩⟩)
    (hl : Walk.bound symbols ≤ limit) (hc : symbols.contains name = true)
    (hok : (known.settleSymbol symbols limit name).result = .ok ()) :
    ∃ reported' messages', Reached symbols
      ⟨names, reported', ⟨(known.settleSymbol symbols limit name).known, [], messages'⟩⟩ ∧
      reported' ++ messages' = reported ++ messages ++ (known.settleSymbol symbols limit name).messages := by
  by_cases hs : Symbol.key name ∈ known.settledKeys
  · rw [Inference.settleSymbol_of_settled hs]
    exact ⟨reported, messages, .tail h (.skip hs), (List.append_nil _).symm⟩
  · have hi : known.inProgress = [] := h.aligned.inProgress
    have hleft := (left_begun_le hi hs hc).trans hl
    rw [Inference.settleSymbol_of_new hs hc] at hok ⊢
    cases hf : ((Walk.begun symbols known (Symbol.key name)).run symbols limit).2 with
    | some fault => simp [hf] at hok
    | none =>
      obtain ⟨hrun, hv⟩ := Walk.run_spec (aligned_begun hi hs hc) hleft hf
      have hr := Reached.walk (.tail h (.start hs hc)) hrun
      generalize (Walk.begun symbols known (Symbol.key name)).run symbols limit = run at hr hv
      obtain ⟨⟨known', visits', messages'⟩, fault⟩ := run
      subst hv
      exact ⟨reported ++ messages, messages', hr, rfl⟩

theorem Reached.settleSymbols {names : List String} {reported messages : List Message} {known : Inference} {limit : Nat}
    (h : Reached symbols ⟨names, reported, ⟨known, [], messages⟩⟩) (hl : Walk.bound symbols ≤ limit)
    (hc : ∀ name ∈ names, symbols.contains name = true)
    (hok : (known.settleSymbols symbols limit names).result = .ok ()) :
    ∃ reported' messages', Reached symbols
      ⟨[], reported', ⟨(known.settleSymbols symbols limit names).known, [], messages'⟩⟩ ∧
      reported' ++ messages' = reported ++ messages ++ (known.settleSymbols symbols limit names).messages := by
  induction names generalizing known reported messages with
  | nil => exact ⟨reported, messages, h, by simp [Inference.settleSymbols]⟩
  | cons name names ih =>
    cases hfirst : (known.settleSymbol symbols limit name).result with
    | error fault => simp [Inference.settleSymbols, hfirst] at hok
    | ok done =>
      obtain ⟨hname, hnames⟩ := List.forall_mem_cons.mp hc
      obtain ⟨r1, m1, h1, e1⟩ := h.settleSymbol hl hname hfirst
      simp only [Inference.settleSymbols, hfirst] at hok ⊢
      obtain ⟨r2, m2, h2, e2⟩ := ih h1 hnames hok
      exact ⟨r2, m2, h2, by rw [e2, e1, List.append_assoc]⟩

end Progress

namespace Inference

variable {symbols : SymbolTable Grammar}

/-- A table that is settled without a fault is settled by a run of the machine to its end. -/
theorem settleTable_reached (h : (settleTable symbols {}).result = .ok ()) :
    ∃ reported messages, Progress.Reached symbols ⟨[], reported, ⟨(settleTable symbols {}).known, [], messages⟩⟩ ∧
      reported ++ messages = (settleTable symbols {}).messages := by
  have hc : ∀ name ∈ symbols.names, symbols.contains name = true := by
    intro name hn
    obtain ⟨entry, he, rfl⟩ := List.mem_map.mp hn
    exact SymbolTable.contains_of_mem he
  have hr : Progress.Reached symbols ⟨symbols.names, [], ⟨{}, [], []⟩⟩ := .refl
  exact hr.settleSymbols (Nat.le_refl _) hc h

theorem settleSymbols_ok (hflat : ∀ entry ∈ symbols, entry.2.hasNested = false) (limit : Nat) (names : List String)
    (known : Inference) : (known.settleSymbols symbols limit names).result = .ok () := by
  induction names generalizing known with
  | nil => rfl
  | cons name names ih =>
    have hfirst : (known.settleSymbol symbols limit name).result = .ok () := by
      simp only [settleSymbol]
      split
      · rfl
      · simp only [Walk.run_snd_eq_none hflat]
    simp only [settleSymbols, hfirst, ih]

/-- Settling meets no fault in a table without collections. -/
theorem settleTable_ok (hflat : ∀ entry ∈ symbols, entry.2.hasNested = false) (known : Inference) :
    (settleTable symbols known).result = .ok () :=
  settleSymbols_ok hflat _ _ known

end Inference

end SheetGrammar
