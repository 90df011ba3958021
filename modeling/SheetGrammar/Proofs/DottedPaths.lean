import SheetGrammar.Grammar.Flatten
import SheetGrammar.Proofs.SymbolKeys

/-!
Paths of names and the texts that stand for them. A qualified name is a path through collections with dots between its
names, and two of them are the same symbol if the texts have one key. This tells two paths apart only if no name has a
dot in it, apart from a default `.all` at the end, and if the case of a name does not depend on what stands around it.

- `IsPath`: a path of plain names to a symbol or to a default; `dotted` is the text for it.
- `Begins`: how a path begins, up to the first dot in its key, and how its key goes on.
- `IsPath.key_dotted`: the key of a path is made of the keys of its names, if there is no capital sigma.
- `IsPath.key_inj`: paths whose texts have one key agree name by name.
-/

namespace SheetGrammar

namespace Text

/-- Without a capital sigma every character is brought into lower case on its own. -/
theorem lowerChars_eq_flatMap {before cs : List Char} (h : 'Σ' ∉ cs) : lowerChars before cs = cs.flatMap lowerChar := by
  induction cs generalizing before with
  | nil => rfl
  | cons c after ih =>
    obtain ⟨hc, hafter⟩ := not_or.mp (mt List.mem_cons.mpr h)
    rw [lowerChars, if_neg (Ne.symm hc), ih hafter, List.flatMap_cons]

theorem caseRuns_above_dot : caseRuns.all (fun run => Nat.blt 0x2E run.target) = true := by decide +kernel

theorem toLower_ne_dot : ∀ n : Fin 128, (Char.ofNat n).toLower = '.' → Char.ofNat n = '.' := by decide +kernel

theorem ofNat_ne_dot {n : Nat} (h : 0x2E < n) : Char.ofNat n ≠ '.' := by
  intro he
  by_cases hv : n.isValidChar
  · have hn : (Char.ofNat n).toNat = n := by
      rw [Char.ofNat, dif_pos hv]
      rfl
    rw [he] at hn
    exact absurd hn (Nat.ne_of_lt h)
  · rw [Char.ofNat, dif_neg hv] at he
    exact absurd he (by decide)

/-- No character but the dot becomes a dot. -/
theorem eq_dot_of_mem_lowerChar {c : Char} (h : '.' ∈ lowerChar c) : c = '.' := by
  unfold lowerChar at h
  split at h
  · next hlt =>
    have hlower := toLower_ne_dot ⟨c.toNat, hlt⟩
    rw [Char.ofNat_toNat] at hlower
    exact hlower (List.mem_singleton.mp h).symm
  · next hlt =>
    split at h
    · exact absurd h (by decide)
    · have habove : 0x2E < lowerCode c.toNat := by
        unfold lowerCode
        split
        · next run hrun =>
          have htarget := List.all_eq_true.mp caseRuns_above_dot run (List.mem_of_find?_eq_some hrun)
          rw [Nat.blt_eq] at htarget
          omega
        · omega
      exact absurd (List.mem_singleton.mp h).symm (ofNat_ne_dot habove)

theorem lowerChar_ne_nil (c : Char) : lowerChar c ≠ [] := by
  unfold lowerChar
  split
  · exact List.cons_ne_nil _ _
  · split <;> exact List.cons_ne_nil _ _

end Text

namespace Symbol

/-! ## Names -/

structure Plain (name : String) : Prop where
  ne_empty : name ≠ ""
  no_dot : '.' ∉ name.toList
  no_sigma : 'Σ' ∉ name.toList

instance (name : String) : Decidable (Plain name) :=
  decidable_of_iff (name ≠ "" ∧ '.' ∉ name.toList ∧ 'Σ' ∉ name.toList)
    ⟨fun h => ⟨h.1, h.2.1, h.2.2⟩, fun h => ⟨h.ne_empty, h.no_dot, h.no_sigma⟩⟩

variable {name : String} {path other : List String}

theorem toList_key (h : 'Σ' ∉ name.toList) : (key name).toList = name.toList.flatMap Text.lowerChar := by
  rw [key, Text.lowercase, String.toList_ofList, Text.lowerChars_eq_flatMap h]

theorem key_append {first second : String} (h : 'Σ' ∉ first.toList) (h' : 'Σ' ∉ second.toList) :
    key (first ++ second) = key first ++ key second := by
  have happend : 'Σ' ∉ (first ++ second).toList := by simp [h, h']
  apply String.toList_injective
  rw [toList_key happend, String.toList_append, String.toList_append, List.flatMap_append, toList_key h, toList_key h']

theorem key_allName : key allName = allName := by decide +kernel

theorem key_dot : key "." = "." := by decide +kernel

theorem Plain.dot_notMem_key (h : Plain name) : '.' ∉ (key name).toList := by
  rw [toList_key h.no_sigma, List.mem_flatMap]
  rintro ⟨c, hc, hdot⟩
  rw [Text.eq_dot_of_mem_lowerChar hdot] at hc
  exact h.no_dot hc

theorem key_ne_empty (hsigma : 'Σ' ∉ name.toList) (h : name ≠ "") : key name ≠ "" := by
  rw [ne_eq, ← String.toList_eq_nil_iff, toList_key hsigma]
  cases hname : name.toList with
  | nil => exact absurd (String.toList_eq_nil_iff.mp hname) h
  | cons c rest => simp [Text.lowerChar_ne_nil]

theorem Plain.key_ne_nil (h : Plain name) : (key name).toList ≠ [] :=
  mt String.toList_eq_nil_iff.mp (key_ne_empty h.no_sigma h.ne_empty)

/-! ## Paths -/

inductive IsPath : List String → Prop
  | symbol {name : String} : Plain name → IsPath [name]
  | default : IsPath [allName]
  | inside {name : String} {path : List String} : Plain name → IsPath path → IsPath (name :: path)

def dotted (path : List String) : String := String.intercalate "." path

@[simp] theorem dotted_singleton (name : String) : dotted [name] = name := String.intercalate_singleton

theorem dotted_append (h : path ≠ []) (h' : other ≠ []) : dotted (path ++ other) = dotted path ++ "." ++ dotted other :=
  String.intercalate_append_of_ne_nil h h'

theorem dotted_cons (h : path ≠ []) : dotted (name :: path) = name ++ "." ++ dotted path :=
  String.intercalate_cons_of_ne_nil h

theorem IsPath.ne_nil (h : IsPath path) : path ≠ [] := by
  cases h <;> exact List.cons_ne_nil _ _

theorem IsPath.append {scope : List String} (h : IsPath path) (hscope : ∀ name ∈ scope, Plain name) :
    IsPath (scope ++ path) := by
  induction scope with
  | nil => exact h
  | cons name rest ih =>
    obtain ⟨hname, hrest⟩ := List.forall_mem_cons.mp hscope
    exact .inside hname (ih hrest)

theorem IsPath.no_sigma (h : IsPath path) : 'Σ' ∉ (dotted path).toList := by
  induction h with
  | symbol hname => simpa using hname.no_sigma
  | default => decide +kernel
  | inside hname hpath ih =>
    have hsigma := hname.no_sigma
    simp [dotted_cons hpath.ne_nil, hsigma, ih]

theorem IsPath.key_cons (hname : Plain name) (h : IsPath path) :
    key (dotted (name :: path)) = key name ++ "." ++ key (dotted path) := by
  have hsigma := hname.no_sigma
  rw [dotted_cons h.ne_nil, key_append (by simp [hsigma]) h.no_sigma, key_append hsigma (by decide), key_dot]

/-- The key of a path is made of the keys of its names. -/
theorem IsPath.key_dotted (h : IsPath path) : key (dotted path) = dotted (path.map key) := by
  induction h with
  | symbol hname => simp
  | default => simp
  | inside hname hpath ih => rw [hpath.key_cons hname, ih, List.map_cons, dotted_cons (by simpa using hpath.ne_nil)]

/-- A text is cut in one way before its first dot. -/
theorem append_dot_inj {a b s t : List Char} (ha : '.' ∉ a) (hb : '.' ∉ b) (hs : s.head?.all (· = '.') = true)
    (ht : t.head?.all (· = '.') = true) (h : a ++ s = b ++ t) : a = b ∧ s = t := by
  induction a generalizing b with
  | nil =>
    cases b with
    | nil => exact ⟨rfl, h⟩
    | cons c b =>
      rw [List.nil_append, List.cons_append] at h
      rw [h] at hs
      have hc : c = '.' := by simpa using hs
      exact absurd (by simp [hc]) hb
  | cons c a ih =>
    cases b with
    | nil =>
      rw [List.nil_append, List.cons_append] at h
      rw [← h] at ht
      have hc : c = '.' := by simpa using ht
      exact absurd (by simp [hc]) ha
    | cons d b =>
      rw [List.cons_append, List.cons_append, List.cons.injEq] at h
      obtain ⟨rfl, hst⟩ := ih (fun hd => ha (List.mem_cons_of_mem _ hd)) (fun hd => hb (List.mem_cons_of_mem _ hd)) h.2
      exact ⟨by rw [h.1], hst⟩

structure Begins (path : List String) (front back : List Char) : Prop where
  text : (key (dotted path)).toList = front ++ back
  front : '.' ∉ front
  back : back.head?.all (· = '.') = true

theorem begins_symbol (h : Plain name) : Begins [name] (key name).toList [] :=
  ⟨by simp, h.dot_notMem_key, rfl⟩

theorem begins_default : Begins [allName] [] allName.toList :=
  ⟨by rw [dotted_singleton, key_allName, List.nil_append], by simp, by decide⟩

theorem begins_inside (hname : Plain name) (h : IsPath path) :
    Begins (name :: path) (key name).toList ('.' :: (key (dotted path)).toList) := by
  refine ⟨?_, hname.dot_notMem_key, rfl⟩
  rw [h.key_cons hname, String.toList_append, String.toList_append, List.append_assoc]
  rfl

theorem Begins.inj {a b s t : List Char} (h : Begins path a s) (h' : Begins other b t)
    (he : key (dotted path) = key (dotted other)) : a = b ∧ s = t :=
  append_dot_inj h.front h'.front h.back h'.back (by rw [← h.text, ← h'.text, he])

/-- Paths whose texts have one key agree name by name. -/
theorem IsPath.key_inj (h : IsPath path) (h' : IsPath other) (he : key (dotted path) = key (dotted other)) :
    path.map key = other.map key := by
  induction h generalizing other with
  | symbol hname =>
    cases h' with
    | symbol _ => simpa using he
    | default =>
      have hfront := ((begins_symbol hname).inj begins_default he).1
      exact absurd hfront hname.key_ne_nil
    | inside hname' hpath' =>
      have hback := ((begins_symbol hname).inj (begins_inside hname' hpath') he).2
      cases hback
  | default =>
    cases h' with
    | symbol hname' =>
      have hfront := (begins_default.inj (begins_symbol hname') he).1
      exact absurd hfront.symm hname'.key_ne_nil
    | default => rfl
    | inside hname' hpath' =>
      have hfront := (begins_default.inj (begins_inside hname' hpath') he).1
      exact absurd hfront.symm hname'.key_ne_nil
  | inside hname hpath ih =>
    cases h' with
    | symbol hname' =>
      have hback := ((begins_inside hname hpath).inj (begins_symbol hname') he).2
      cases hback
    | default =>
      have hfront := ((begins_inside hname hpath).inj begins_default he).1
      exact absurd hfront hname.key_ne_nil
    | inside hname' hpath' =>
      obtain ⟨hfront, hback⟩ := (begins_inside hname hpath).inj (begins_inside hname' hpath') he
      have hrest := ih hpath' (String.toList_injective (List.cons.inj hback).2)
      rw [List.map_cons, List.map_cons, String.toList_injective hfront, hrest]

/-! ## Qualified names -/

/-- Only the outermost scope and a collection there without a name have no text. -/
theorem dotted_eq_empty_iff : dotted path = "" ↔ path = [] ∨ path = [""] := by
  cases path with
  | nil => simp [dotted]
  | cons first rest =>
    cases rest with
    | nil => simp
    | cons second rest => simp [dotted_cons]

/-- A path inside a scope is qualified by the names of the scope before it, if the scope is not taken for the outermost
one. -/
theorem qualifyIn_dotted_of_ne {scope : List String} (hscope : scope ≠ [""]) (h : path ≠ []) :
    qualifyIn scope (dotted path) = dotted (scope ++ path) := by
  by_cases hne : scope = []
  · rw [hne]
    rfl
  · have htext : dotted scope ≠ "" := fun he => (dotted_eq_empty_iff.mp he).elim hne hscope
    rw [qualifyIn, qualify, dotted_append hne h]
    exact if_neg (by simpa [dotted] using htext)

theorem qualifyIn_of_ne {scope : List String} (hscope : scope ≠ [""]) (name : String) :
    qualifyIn scope name = dotted (scope ++ [name]) := by
  have hdotted := qualifyIn_dotted_of_ne hscope (List.cons_ne_nil name [])
  rwa [dotted_singleton] at hdotted

theorem concat_ne_unnamed {scope : List String} {name : String} (h : name ≠ "") : scope ++ [name] ≠ [""] := by
  intro he
  have hlast := congrArg List.getLast? he
  rw [List.getLast?_concat] at hlast
  exact h (Option.some.inj hlast)

section Qualified

variable {scope : List String} (hscope : ∀ name ∈ scope, Plain name)
include hscope

theorem ne_unnamed_of_plain : scope ≠ [""] := by
  rintro rfl
  exact (hscope "" (List.mem_singleton_self _)).ne_empty rfl

theorem dotted_ne_empty (hne : scope ≠ []) : dotted scope ≠ "" := fun he =>
  (dotted_eq_empty_iff.mp he).elim hne (ne_unnamed_of_plain hscope)

/-- A path inside a scope is qualified by the names of the scope before it. -/
theorem qualifyIn_dotted (h : path ≠ []) : qualifyIn scope (dotted path) = dotted (scope ++ path) :=
  qualifyIn_dotted_of_ne (ne_unnamed_of_plain hscope) h

theorem isPath_of_plain (hne : scope ≠ []) : IsPath scope := by
  induction scope with
  | nil => exact absurd rfl hne
  | cons first rest ih =>
    obtain ⟨hfirst, hrest⟩ := List.forall_mem_cons.mp hscope
    cases rest with
    | nil => exact .symbol hfirst
    | cons second rest => exact .inside hfirst (ih hrest (List.cons_ne_nil _ _))

/-- The key of a collection leads to the key of its default. -/
theorem qualify_key_dotted (hne : scope ≠ []) :
    qualify (key (dotted scope)) allName = key (dotted (scope ++ [allName])) := by
  have hsigma := (isPath_of_plain hscope hne).no_sigma
  have hkey := key_ne_empty hsigma (dotted_ne_empty hscope hne)
  rw [qualify, if_neg (by simpa using hkey), dotted_append hne (List.cons_ne_nil _ _), dotted_singleton,
    key_append (by simp [hsigma]) (by decide), key_append hsigma (by decide), key_dot, key_allName]

end Qualified

end Symbol

end SheetGrammar
