import SheetGrammar.SymbolTable

/-!
Keys of symbols. A table is asked by a name or by a key, and a name that is a key already must not be changed by being
brought into lower case once more.

- `Text.lowercase_lowercase`: a lower-case form is its own. No run of the case table covers a code point that another
  one leads to (`caseRuns_clear`), and no lower-case form is a sigma that could still end a word.
- `SymbolTable.get?_key`, `SymbolTable.contains_key`: a key finds what its name finds.
- `SymbolTable.entry?_of_mem`: in a table without repeated keys every entry is found by its own name.
- `SymbolTable.ofList_of_wellFormed`: such a table made anew from its own entries is the same.
-/

namespace SheetGrammar.Text

/-! ## Lower-case forms are stable -/

/-- No lower-case form that `run` gives is covered by `other`. -/
def CaseRun.clears (run other : CaseRun) : Bool :=
  Nat.blt (run.target + (run.last - run.first)) other.first || Nat.blt other.last run.target ||
    (Nat.beq other.step 2 && Nat.beq ((run.target + other.first) % 2) 1 &&
      (Nat.beq run.step 2 || Nat.beq run.first run.last))

/-- The lower-case forms that `run` gives are characters other than the capital I with a dot above. -/
def CaseRun.landsOnCharacters (run : CaseRun) : Bool :=
  (Nat.blt (run.target + (run.last - run.first)) 0xD800 ||
      Nat.ble 0xE000 run.target && Nat.blt (run.target + (run.last - run.first)) 0x110000) &&
    (Nat.blt 0x130 run.target || Nat.blt (run.target + (run.last - run.first)) 0x130)

theorem caseRuns_clear : caseRuns.all (fun run => caseRuns.all run.clears) = true := by decide +kernel

theorem caseRuns_land : caseRuns.all CaseRun.landsOnCharacters = true := by decide +kernel

theorem not_covers_of_clears {run other : CaseRun} {n : Nat} (hc : run.covers n = true) (h : run.clears other = true) :
    other.covers (run.target + (n - run.first)) = false := by
  simp only [CaseRun.covers, Bool.and_eq_true, decide_eq_true_eq, beq_iff_eq] at hc
  obtain ⟨⟨h1, h2⟩, h3⟩ := hc
  simp only [CaseRun.clears, Bool.or_eq_true, Bool.and_eq_true, Nat.blt_eq, Nat.beq_eq] at h
  simp only [CaseRun.covers, Bool.and_eq_false_iff, decide_eq_false_iff_not, beq_eq_false_iff_ne]
  rcases h with (h | h) | ⟨⟨hs, hodd⟩, hr⟩
  · left; left; omega
  · left; right; omega
  · by_cases hle : other.first ≤ run.target + (n - run.first)
    · right
      -- both sides go in steps of two, from code points of different parity
      rcases hr with hr | hr
      · rw [hs]; rw [hr] at h3; omega
      · rw [hs]; omega
    · left; left; exact hle

theorem lowerCode_covered {run : CaseRun} {n : Nat} (h : caseRuns.find? (·.covers n) = some run) :
    lowerCode n = run.target + (n - run.first) ∧ caseRuns.find? (·.covers (lowerCode n)) = none := by
  have e : lowerCode n = run.target + (n - run.first) := by simp only [lowerCode, h]
  refine ⟨e, ?_⟩
  rw [e, List.find?_eq_none]
  intro other ho
  have hclear := List.all_eq_true.mp (List.all_eq_true.mp caseRuns_clear run (List.mem_of_find?_eq_some h)) other ho
  have hc := List.find?_some h
  simp [not_covers_of_clears hc hclear]

/-- A character that lower-casing leaves as it is, wherever it stands. -/
def Lowered (c : Char) : Prop := c ≠ 'Σ' ∧ lowerChar c = [c]

instance (c : Char) : Decidable (Lowered c) := inferInstanceAs (Decidable (c ≠ 'Σ' ∧ lowerChar c = [c]))

theorem lowered_of_not_covered {c : Char} (hi : c ≠ 'İ') (h : caseRuns.find? (·.covers c.toNat) = none) :
    Lowered c := by
  have hno : ∀ run ∈ caseRuns, run.covers c.toNat = false := by simpa [List.find?_eq_none] using h
  have hcode : lowerCode c.toNat = c.toNat := by simp only [lowerCode, h]
  refine ⟨fun hs => ?_, ?_⟩
  · have := hno ⟨0x3A3, 0x3AB, 1, 0x3C3⟩ (by decide)
    subst hs
    revert this; decide
  · unfold lowerChar
    split
    · have hA := hno ⟨0x41, 0x5A, 1, 0x61⟩ (by decide)
      simp only [CaseRun.covers, Nat.mod_one, BEq.rfl, Bool.and_true, Bool.and_eq_false_iff,
        decide_eq_false_iff_not] at hA
      unfold Char.toLower
      rw [dif_neg]
      intro hval
      have h1 : 0x41 ≤ c.toNat := UInt32.le_iff_toNat_le.mp hval.1
      have h2 : c.toNat ≤ 0x5A := UInt32.le_iff_toNat_le.mp hval.2
      omega
    · rw [hcode, Char.ofNat_toNat]

/-- A lower-case form is a character, and not the capital I with a dot above. -/
theorem toNat_lowerCode {n : Nat} {run : CaseRun} (h : caseRuns.find? (·.covers n) = some run) :
    (Char.ofNat (lowerCode n)).toNat = lowerCode n ∧ lowerCode n ≠ 0x130 := by
  obtain ⟨hcode, -⟩ := lowerCode_covered h
  have hland := List.all_eq_true.mp caseRuns_land run (List.mem_of_find?_eq_some h)
  have hc := List.find?_some h
  simp only [CaseRun.covers, Bool.and_eq_true, decide_eq_true_eq] at hc
  simp only [CaseRun.landsOnCharacters, Bool.and_eq_true, Bool.or_eq_true, Nat.blt_eq, Nat.ble_eq] at hland
  have hvalid : (lowerCode n).isValidChar := by rw [hcode]; unfold Nat.isValidChar; omega
  refine ⟨?_, by omega⟩
  rw [Char.ofNat, dif_pos hvalid]
  rfl

theorem lowered_of_covered {c : Char} {run : CaseRun} (h : caseRuns.find? (·.covers c.toNat) = some run) :
    Lowered (Char.ofNat (lowerCode c.toNat)) := by
  obtain ⟨hnat, hne⟩ := toNat_lowerCode h
  obtain ⟨-, hnone⟩ := lowerCode_covered h
  refine lowered_of_not_covered (fun hi => ?_) (by rw [hnat]; exact hnone)
  rw [← hnat, hi] at hne
  exact hne rfl

theorem lowered_toLower : ∀ n : Fin 128, Lowered (Char.ofNat n).toLower := by decide +kernel

/-- What a character becomes is lower case. -/
theorem lowered_of_mem_lowerChar {c d : Char} (h : d ∈ lowerChar c) : Lowered d := by
  unfold lowerChar at h
  split at h
  · rename_i hlt
    have := lowered_toLower ⟨c.toNat, hlt⟩
    rw [Char.ofNat_toNat] at this
    rw [List.mem_singleton.mp h]; exact this
  · split at h
    · rcases List.mem_cons.mp h with rfl | h
      · decide
      · rw [List.mem_singleton.mp h]; decide +kernel
    · rename_i hlt hi
      rw [List.mem_singleton.mp h]
      cases hf : caseRuns.find? (·.covers c.toNat) with
      | none =>
        have : lowerCode c.toNat = c.toNat := by simp only [lowerCode, hf]
        rw [this, Char.ofNat_toNat]
        exact lowered_of_not_covered hi hf
      | some run => exact lowered_of_covered hf

theorem lowered_of_mem_lowerChars {before cs : List Char} {d : Char} (h : d ∈ lowerChars before cs) : Lowered d := by
  induction cs generalizing before with
  | nil => cases h
  | cons c after ih =>
    simp only [lowerChars, List.mem_append] at h
    rcases h with h | h
    · split at h
      · rw [List.mem_singleton.mp h]
        split <;> decide +kernel
      · exact lowered_of_mem_lowerChar h
    · exact ih h

theorem lowerChars_of_lowered {before cs : List Char} (h : ∀ c ∈ cs, Lowered c) : lowerChars before cs = cs := by
  induction cs generalizing before with
  | nil => rfl
  | cons c after ih =>
    obtain ⟨hs, hc⟩ := h c (List.mem_cons_self ..)
    rw [lowerChars, if_neg hs, hc, ih fun d hd => h d (List.mem_cons_of_mem _ hd)]
    rfl

/-- Lower case stays as it is. -/
theorem lowercase_lowercase (s : String) : lowercase (lowercase s) = lowercase s := by
  unfold lowercase
  rw [String.toList_ofList]
  rw [lowerChars_of_lowered fun _ hd => lowered_of_mem_lowerChars hd]

end SheetGrammar.Text

namespace SheetGrammar

@[simp] theorem Symbol.key_key (name : String) : Symbol.key (Symbol.key name) = Symbol.key name :=
  Text.lowercase_lowercase name

namespace SymbolTable

variable {α β : Type} {table : SymbolTable α} {name : String}

/-! ## Looking up -/

@[simp] theorem entry?_key (table : SymbolTable α) (name : String) :
    table.entry? (Symbol.key name) = table.entry? name := by
  unfold entry?
  rw [Symbol.key_key]

@[simp] theorem get?_key (table : SymbolTable α) (name : String) : table.get? (Symbol.key name) = table.get? name := by
  simp [get?]

@[simp] theorem contains_key (table : SymbolTable α) (name : String) :
    table.contains (Symbol.key name) = table.contains name := by
  simp [contains]

theorem contains_eq_isSome (table : SymbolTable α) (name : String) :
    table.contains name = (table.get? name).isSome := by
  simp [contains, get?]

theorem contains_of_get? {a : α} (h : table.get? name = some a) : table.contains name = true := by
  rw [contains_eq_isSome, h]; rfl

theorem exists_get? (h : table.contains name = true) : ∃ a, table.get? name = some a :=
  Option.isSome_iff_exists.mp (contains_eq_isSome table name ▸ h)

theorem contains_iff : table.contains name = true ↔ ∃ entry ∈ table, Symbol.key entry.1 = Symbol.key name := by
  simp [contains, entry?, entryOfKey?]

theorem contains_eq_false_iff :
    table.contains name = false ↔ ∀ entry ∈ table, Symbol.key entry.1 ≠ Symbol.key name := by
  rw [← Bool.not_eq_true, contains_iff]
  simp

theorem contains_of_mem {entry : String × α} (h : entry ∈ table) : table.contains entry.1 = true :=
  contains_iff.mpr ⟨entry, h, rfl⟩

theorem mem_of_entry? {entry : String × α} (h : table.entry? name = some entry) :
    entry ∈ table ∧ Symbol.key entry.1 = Symbol.key name := by
  have := List.find?_some h
  exact ⟨List.mem_of_find?_eq_some h, by simpa using this⟩

theorem mem_of_get? {a : α} (h : table.get? name = some a) :
    ∃ entry ∈ table, Symbol.key entry.1 = Symbol.key name ∧ entry.2 = a := by
  obtain ⟨entry, he, rfl⟩ := Option.map_eq_some_iff.mp h
  obtain ⟨hmem, hk⟩ := mem_of_entry? he
  exact ⟨entry, hmem, hk, rfl⟩

instance (table : SymbolTable α) : Decidable table.WellFormed := inferInstanceAs (Decidable table.keys.Nodup)

/-- Of a table without repeated keys, an entry is found by any spelling of its name. -/
theorem entry?_of_mem (hw : table.WellFormed) {entry : String × α} (h : entry ∈ table)
    (hk : Symbol.key entry.1 = Symbol.key name) : table.entry? name = some entry := by
  unfold entry? entryOfKey?
  induction table with
  | nil => cases h
  | cons first rest ih =>
    rw [WellFormed, keys, List.map_cons, List.nodup_cons] at hw
    rcases List.mem_cons.mp h with rfl | h
    · simp [hk]
    · have hne : Symbol.key first.1 ≠ Symbol.key name := fun he =>
        hw.1 (List.mem_map.mpr ⟨entry, h, hk.trans he.symm⟩)
      rw [List.find?_cons_of_neg (by simpa using hne)]
      exact ih hw.2 h

/-- One more entry keeps the keys apart if its name is new. -/
theorem wellFormed_concat {entry : String × α} :
    WellFormed (table ++ [entry]) ↔ table.WellFormed ∧ table.contains entry.1 = false := by
  have happend : (table.keys ++ keys [entry]).Nodup ↔ _ := List.nodup_append
  rw [← Bool.not_eq_true, contains_iff, WellFormed, keys, List.map_append]
  refine happend.trans (and_congr_right fun _ => ?_)
  simp only [keys, List.mem_map, forall_exists_index, and_imp, forall_apply_eq_imp_iff₂, List.mem_singleton, forall_eq]
  simp

/-- Insertion brings in nothing but its entry. -/
theorem mem_of_mem_insert {value : α} {entry : String × α} (h : entry ∈ table.insert name value) :
    entry = (name, value) ∨ entry ∈ table := by
  unfold insert at h
  induction table with
  | nil => exact Or.inl (List.mem_singleton.mp h)
  | cons first rest ih =>
    rw [put] at h
    split at h
    · rcases List.mem_cons.mp h with h | h
      · exact Or.inl h
      · exact Or.inr (List.mem_cons_of_mem _ h)
    · rcases List.mem_cons.mp h with h | h
      · exact Or.inr (h ▸ List.mem_cons_self ..)
      · exact (ih h).imp id (List.mem_cons_of_mem _)

/-- A name that is new is put at the end. -/
theorem insert_of_not_contains (h : table.contains name = false) (value : α) :
    table.insert name value = table ++ [(name, value)] := by
  rw [contains_eq_false_iff] at h
  unfold insert
  induction table with
  | nil => rfl
  | cons first rest ih =>
    obtain ⟨hfirst, hrest⟩ := List.forall_mem_cons.mp h
    rw [put, if_neg hfirst, ih hrest, List.cons_append]

/-- Of definitions under distinct names, one after the other, none replaces another. -/
theorem foldl_insert_of_wellFormed {more : List (String × α)} (h : WellFormed (table ++ more)) :
    more.foldl (fun table entry => table.insert entry.1 entry.2) table = table ++ more := by
  induction more generalizing table with
  | nil => simp
  | cons entry rest ih =>
    have split : table ++ entry :: rest = (table ++ [entry]) ++ rest := by simp
    rw [split] at h
    have hfirst : WellFormed (table ++ [entry]) := h.sublist ((List.sublist_append_left _ rest).map _)
    rw [List.foldl_cons, insert_of_not_contains (wellFormed_concat.mp hfirst).2, ih h, split]

/-- A table made anew from its own entries is the same. -/
theorem ofList_of_wellFormed (h : table.WellFormed) : ofList table = table := foldl_insert_of_wellFormed h

/-! ## Tables of the same names -/

def redefine (table : SymbolTable α) (f : String × α → β) : SymbolTable β := table.map fun entry => (entry.1, f entry)

theorem wellFormed_map {f : String × α → β} :
    WellFormed (table.map fun entry => (entry.1, f entry)) ↔ table.WellFormed := by
  simp [WellFormed, keys, Function.comp_def]

/-- Whether the entries keep their places or are put one after the other into an empty table makes no difference. -/
theorem ofList_redefine (h : table.WellFormed) (f : String × α → β) : ofList (table.redefine f) = table.redefine f :=
  ofList_of_wellFormed (wellFormed_map.mpr h)

theorem entry?_redefine (table : SymbolTable α) (f : String × α → β) (name : String) :
    SymbolTable.entry? (table.redefine f) name = (table.entry? name).map fun entry => (entry.1, f entry) := by
  unfold entry? entryOfKey? redefine
  rw [List.find?_map]
  rfl

@[simp] theorem contains_redefine (table : SymbolTable α) (f : String × α → β) (name : String) :
    (table.redefine f).contains name = table.contains name := by
  simp [contains, entry?_redefine]

@[simp] theorem names_redefine (table : SymbolTable α) (f : String × α → β) :
    (table.redefine f).names = table.names := by
  rw [names, redefine, List.map_map]
  rfl

theorem get?_redefine {f : String × α → β} {b : β} (h : (table.redefine f).get? name = some b) :
    ∃ entry ∈ table, Symbol.key entry.1 = Symbol.key name ∧ table.get? name = some entry.2 ∧ f entry = b := by
  rw [get?, entry?_redefine] at h
  cases he : table.entry? name with
  | none => rw [he] at h; cases h
  | some entry =>
    rw [he] at h
    obtain ⟨hmem, hk⟩ := mem_of_entry? he
    exact ⟨entry, hmem, hk, by rw [get?, he]; rfl, Option.some.inj h⟩

theorem get?_redefine_of_mem (hw : table.WellFormed) (f : String × α → β) {entry : String × α} (h : entry ∈ table) :
    (table.redefine f).get? entry.1 = some (f entry) := by
  rw [get?, entry?_redefine, entry?_of_mem hw h rfl]
  rfl

end SymbolTable

end SheetGrammar
