import SheetGrammar.Proofs.SymbolKeys

/-!
Tables and the definitions that made them. A name is defined again and again, in one spelling or another, and of all
this a table keeps one entry for each key: it stands where the key was defined first, and it is spelled and valued as
the key was defined last.

- `SymbolTable.Defined`: what one definition does. It is added at the end, or the one entry of its key makes room for
  it.
- `SymbolTable.defined_iff`: an exchange does this and gives back the entry that made room.
- `SymbolTable.Remembers`: a table and the definitions, oldest first, that it comes from.
- `SymbolTable.Remembers.insert`, `SymbolTable.remembers_ofList`: one more definition, and all of them.
-/

namespace SheetGrammar.SymbolTable

open SheetGrammar.Symbol (key)

variable {α : Type} {table made : SymbolTable α} {definitions : List (String × α)} {name : String} {value : α}

/-! ## One definition -/

inductive Defined (table : SymbolTable α) (name : String) (value : α) : Option (String × α) → SymbolTable α → Prop
  /-- No entry has the key of the name. -/
  | added (new : ∀ entry ∈ table, key entry.1 ≠ key name) : Defined table name value none (table ++ [(name, value)])
  /-- One entry has it, whatever its spelling, and no other. -/
  | replaced (front back : List (String × α)) (old : String × α) (place : table = front ++ old :: back)
      (same : key old.1 = key name)
      (others : ∀ entry ∈ front ++ back, key entry.1 ≠ key name) :
      Defined table name value (some old) (front ++ (name, value) :: back)

/-- An entry is replaced where it stands. -/
theorem insert_of_place {front back : List (String × α)} {old : String × α}
    (hfront : ∀ entry ∈ front, key entry.1 ≠ key name) (hold : key old.1 = key name) (value : α) :
    SymbolTable.insert (front ++ old :: back) name value = front ++ (name, value) :: back := by
  unfold insert
  induction front with
  | nil => exact if_pos hold
  | cons first rest ih =>
    obtain ⟨hfirst, hrest⟩ := List.forall_mem_cons.mp hfront
    rw [List.cons_append, put, if_neg hfirst, ih hrest, List.cons_append]

/-- The first entry of a key is the one that is found. -/
theorem entry?_eq_some_iff {old : String × α} :
    table.entry? name = some old ↔
      key old.1 = key name ∧ ∃ front back, table = front ++ old :: back ∧ ∀ entry ∈ front, key entry.1 ≠ key name := by
  unfold entry? entryOfKey?
  rw [List.find?_eq_some_iff_append]
  simp

/-- In a table without repeated keys nothing behind an entry has its key. -/
theorem WellFormed.key_ne {front back : List (String × α)} {old : String × α} (hw : WellFormed (front ++ old :: back)) :
    ∀ entry ∈ back, key entry.1 ≠ key old.1 := by
  have hback : WellFormed (old :: back) := hw.sublist ((List.sublist_append_right front _).map _)
  rw [WellFormed, keys, List.map_cons, List.nodup_cons] at hback
  intro entry he hk
  exact hback.1 (List.mem_map.mpr ⟨entry, he, hk⟩)

/-- An exchange does what a definition does to a table, and nothing else. -/
theorem defined_iff (hw : table.WellFormed) {displaced : Option (String × α)} :
    table.Defined name value displaced made ↔ table.exchange name value = (displaced, made) := by
  constructor
  · intro h
    cases h with
    | added new =>
      have hnew := contains_eq_false_iff.mpr new
      have hnone : table.entry? name = none := by simpa [contains] using hnew
      rw [exchange, hnone, insert_of_not_contains hnew]
    | replaced front back old place same others =>
      have hfront := fun entry he => others entry (List.mem_append_left _ he)
      rw [exchange, entry?_eq_some_iff.mpr ⟨same, front, back, place, hfront⟩, place, insert_of_place hfront same]
  · intro h
    obtain ⟨rfl, rfl⟩ := Prod.mk.inj h
    cases he : table.entry? name with
    | none =>
      have hnew : table.contains name = false := by rw [contains, he]; rfl
      rw [insert_of_not_contains hnew]
      exact .added (contains_eq_false_iff.mp hnew)
    | some old =>
      obtain ⟨same, front, back, place, hfront⟩ := entry?_eq_some_iff.mp he
      subst place
      rw [insert_of_place hfront same]
      -- what is found is the first entry of its key; that no other has it is known of the table
      refine .replaced front back old rfl same fun entry hmem => ?_
      rcases List.mem_append.mp hmem with hmem | hmem
      · exact hfront entry hmem
      · exact same ▸ hw.key_ne entry hmem

/-- A definition brings in its key at the end, or leaves the keys as they are. -/
theorem Defined.keys_eq {displaced : Option (String × α)} (h : table.Defined name value displaced made) :
    made.keys = if key name ∈ table.keys then table.keys else table.keys ++ [key name] := by
  cases h with
  | added new =>
    have hnew : key name ∉ table.keys := by simpa [keys] using new
    rw [if_neg hnew, keys, List.map_append]
    rfl
  | replaced front back old place same others =>
    have hold : key name ∈ table.keys := by simp [keys, place, same]
    rw [if_pos hold, place]
    simp [keys, same]

/-- A definition is found by its key, and every other key finds what it found before. -/
theorem Defined.entryOfKey?_eq {displaced : Option (String × α)} (h : table.Defined name value displaced made)
    (k : String) : made.entryOfKey? k = if key name = k then some (name, value) else table.entryOfKey? k := by
  cases h with
  | added new =>
    rw [entryOfKey?, List.find?_append]
    split
    · next hk =>
      have hnone : table.find? (fun entry => key entry.1 == k) = none := by simpa [hk] using new
      simp [hnone, hk]
    · next hk => simp [hk, entryOfKey?]
  | replaced front back old place same others =>
    rw [entryOfKey?, List.find?_append]
    split
    · next hk =>
      have hnone : front.find? (fun entry => key entry.1 == k) = none := by
        simpa [hk] using fun entry he => others entry (List.mem_append_left _ he)
      simp [hnone, hk]
    · next hk => simp [hk, entryOfKey?, place, same]

theorem Defined.wellFormed {displaced : Option (String × α)} (h : table.Defined name value displaced made)
    (hw : table.WellFormed) : made.WellFormed := by
  rw [WellFormed, h.keys_eq]
  split
  · exact hw
  · next hnew =>
    refine List.nodup_append.mpr ⟨hw, by simp, ?_⟩
    rintro k hk _ hname rfl
    exact hnew (List.mem_singleton.mp hname ▸ hk)

/-! ## All definitions -/

def lastOfKey? (definitions : List (String × α)) (k : String) : Option (String × α) :=
  definitions.findRev? fun definition => key definition.1 == k

theorem lastOfKey?_concat (definitions : List (String × α)) (name : String) (value : α) (k : String) :
    lastOfKey? (definitions ++ [(name, value)]) k =
      if key name = k then some (name, value) else lastOfKey? definitions k := by
  rw [lastOfKey?, lastOfKey?, List.findRev?_eq_find?_reverse, List.findRev?_eq_find?_reverse, List.reverse_concat,
    List.find?_cons]
  split
  · next h => rw [if_pos (by simpa using h)]
  · next h => rw [if_neg (by simpa using h)]

/-- A key that comes up for the first time is the last in order. -/
theorem keys_concat_eraseDups (definitions : List (String × α)) (name : String) (value : α) :
    (keys (definitions ++ [(name, value)])).eraseDups =
      if key name ∈ (keys definitions).eraseDups then (keys definitions).eraseDups else (keys definitions).eraseDups ++
        [key name] := by
  have hkeys : keys (definitions ++ [(name, value)]) = keys definitions ++ [key name] := List.map_append
  rw [hkeys, List.eraseDups_append, List.cons_removeAll]
  by_cases h : key name ∈ keys definitions
  · simp [h]
  · simp [h, List.eraseDups_cons]

structure Remembers (table : SymbolTable α) (definitions : List (String × α)) : Prop where
  distinct : table.WellFormed
  /-- The keys stand in the order in which they were defined first. -/
  order : table.keys = (keys definitions).eraseDups
  /-- A key finds its last definition, spelling and all. -/
  last : ∀ k, table.entryOfKey? k = lastOfKey? definitions k

theorem remembers_nil : Remembers ([] : SymbolTable α) [] := ⟨List.nodup_nil, by simp [keys], fun _ => rfl⟩

/-- One more definition. -/
theorem Remembers.insert (h : table.Remembers definitions) (name : String) (value : α) :
    (table.insert name value).Remembers (definitions ++ [(name, value)]) := by
  have hdefined : table.Defined name value (table.entry? name) (table.insert name value) :=
    (defined_iff h.distinct).mpr rfl
  refine ⟨hdefined.wellFormed h.distinct, ?_, fun k => ?_⟩
  · rw [hdefined.keys_eq, h.order, keys_concat_eraseDups]
  · rw [hdefined.entryOfKey?_eq, h.last, lastOfKey?_concat]

/-- More definitions, behind those that the table comes from. -/
theorem Remembers.foldl (h : table.Remembers definitions) (more : List (String × α)) :
    (more.foldl (fun table entry => table.insert entry.1 entry.2) table).Remembers (definitions ++ more) := by
  induction more generalizing table definitions with
  | nil => simpa using h
  | cons entry rest ih => simpa using ih (h.insert entry.1 entry.2)

theorem remembers_ofList (definitions : List (String × α)) : (ofList definitions).Remembers definitions :=
  remembers_nil.foldl definitions

/-- The entries one by one, as the keys were defined last. -/
theorem Remembers.map_some (h : table.Remembers definitions) :
    table.map some = table.keys.map (lastOfKey? definitions) := by
  rw [keys, List.map_map]
  refine List.map_congr_left fun entry he => ?_
  rw [Function.comp_apply, ← h.last]
  exact (entry?_of_mem h.distinct he rfl).symm

theorem entry?_congr (table : SymbolTable α) {name other : String} (h : key name = key other) :
    table.entry? name = table.entry? other :=
  congrArg table.entryOfKey? h

theorem ofList_concat (definitions : List (String × α)) (name : String) (value : α) :
    ofList (definitions ++ [(name, value)]) = (ofList definitions).insert name value :=
  List.foldl_append

/-- Whatever has been defined, in whatever spellings: the table goes through the keys in the order in which they came
up, each with its last definition; an exchange gives back the entry that it displaces; names of one key find the same;
and the table is made anew by defining its own names once more, with the values that they have or with others. -/
theorem definitions_remembered (definitions : List (String × α)) :
    let table := ofList definitions
    (table.WellFormed ∧ table.keys = (keys definitions).eraseDups ∧
      table.map some = table.keys.map (lastOfKey? definitions)) ∧
      (∀ name value,
        table.exchange name value = (lastOfKey? definitions (key name), ofList (definitions ++ [(name, value)])) ∧
          ∀ displaced made, table.exchange name value = (displaced, made) ↔ table.Defined name value displaced made) ∧
      (∀ name other, key name = key other →
        table.contains name = table.contains other ∧ table.get? name = table.get? other ∧
          table.entry? name = table.entry? other) ∧
      (∀ name, table.contains (key name) = table.contains name ∧ table.get? (key name) = table.get? name ∧
        table.entry? (key name) = table.entry? name ∧ table.entry? name = lastOfKey? definitions (key name)) ∧
      ofList table = table ∧ ∀ (β : Type) (f : String × α → β), ofList (table.redefine f) = table.redefine f := by
  intro table
  have h : table.Remembers definitions := remembers_ofList definitions
  refine ⟨⟨h.distinct, h.order, h.map_some⟩, ?_, ?_, ?_, ofList_of_wellFormed h.distinct, ?_⟩
  · intro name value
    refine ⟨?_, fun displaced made => (defined_iff h.distinct).symm⟩
    rw [ofList_concat, exchange, ← h.last]
    rfl
  · intro name other hkey
    have hentry := table.entry?_congr hkey
    rw [contains, contains, get?, get?, hentry]
    exact ⟨rfl, rfl, rfl⟩
  · intro name
    exact ⟨table.contains_key name, table.get?_key name, table.entry?_key name, h.last (key name)⟩
  · intro β f
    exact ofList_redefine h.distinct f

/-- A word in capitals, where the last letter is a final sigma, and the same word as it is written otherwise. -/
theorem definitions_remembered_odos :
    let definitions := [("ΟΔΟΣ", "road"), ("noun", "cat"), ("Οδος", "street"), ("NOUN", "dog")]
    key "ΟΔΟΣ" = key "οδος" ∧ (ofList definitions).get? "ΟΔΟΣ" = (ofList definitions).get? "οδος" ∧
      SymbolTable.entry? (ofList definitions) "οδος" = some ("Οδος", "street") ∧
        ofList definitions = [("Οδος", "street"), ("NOUN", "dog")] ∧
      (ofList definitions).exchange "Noun" "fox" = (some ("NOUN", "dog"), [("Οδος", "street"), ("Noun", "fox")]) := by
  intro definitions
  have hkey : key "ΟΔΟΣ" = key "οδος" := by decide +kernel
  obtain ⟨-, -, hspellings, -⟩ := definitions_remembered definitions
  exact ⟨hkey, (hspellings "ΟΔΟΣ" "οδος" hkey).2.1, by decide +kernel, by decide +kernel, by decide +kernel⟩

end SheetGrammar.SymbolTable
