import SheetGrammar.TapeSet

/-!
Sets of texts by tapes, the tapes in the order of their code points. A tape that is there may have no text, though no
operation below leaves one so if there was none before.

- `mem_texts_extend`, `mem_texts_merge`, `mem_texts_rename`: the operations by the texts on each tape.
- `tapes_extend`, `mem_tapes_merge`, `tapes_rename`: the operations by the tapes.
- `Occupied`: no tape is without a text. It is kept by all of them.
-/

namespace SheetGrammar

structure LiteralMap where
  entries : List (String × SortedSet String)
  sorted : (entries.map (·.1)).Pairwise (· < ·)
deriving DecidableEq

namespace LiteralMap

instance : EmptyCollection LiteralMap := ⟨[], .nil⟩

def isEmpty (literals : LiteralMap) : Bool := literals.entries.isEmpty

def tapes (literals : LiteralMap) : TapeSet := ⟨literals.entries.map (·.1), literals.sorted⟩

def get? (literals : LiteralMap) (tape : String) : Option (SortedSet String) := literals.entries.lookup tape

def texts (literals : LiteralMap) (tape : String) : List String := ((literals.get? tape).getD ∅).toList

/-- Adds to the texts of a tape, which gets a place among the others if it has none. -/
def extendEntries (tape : String) (texts : SortedSet String) :
    List (String × SortedSet String) → List (String × SortedSet String)
  | [] => [(tape, texts)]
  | entry :: rest =>
    if tape < entry.1 then (tape, texts) :: entry :: rest
    else if entry.1 < tape then entry :: extendEntries tape texts rest
    else (entry.1, entry.2 ∪ texts) :: rest

theorem map_fst_extendEntries (tape : String) (texts : SortedSet String) (entries : List (String × SortedSet String)) :
    (extendEntries tape texts entries).map (·.1) = SortedSet.place tape (entries.map (·.1)) := by
  induction entries with
  | nil => rfl
  | cons entry rest ih =>
    simp only [extendEntries, List.map_cons, SortedSet.place]
    split
    · rfl
    · split
      · rw [List.map_cons, ih]
      · rfl

def extend (literals : LiteralMap) (tape : String) (texts : SortedSet String) : LiteralMap where
  entries := extendEntries tape texts literals.entries
  sorted := by
    rw [map_fst_extendEntries]
    exact SortedSet.pairwise_place tape literals.sorted

def insert (literals : LiteralMap) (tape text : String) : LiteralMap := literals.extend tape (SortedSet.singleton text)

def merge (literals other : LiteralMap) : LiteralMap :=
  other.entries.foldl (fun found entry => found.extend entry.1 entry.2) literals

def remove (literals : LiteralMap) (tape : String) : LiteralMap where
  entries := literals.entries.filter (·.1 ≠ tape)
  sorted := literals.sorted.sublist (List.filter_sublist.map _)

/-- Moves the texts of one tape onto another. -/
def rename (literals : LiteralMap) (source target : String) : LiteralMap :=
  match literals.get? source with
  | some texts => (literals.remove source).extend target texts
  | none => literals

/-- A line for each tape, with its texts. -/
def render (literals : LiteralMap) : String :=
  String.join (literals.entries.map fun entry =>
    entry.1 ++ ": " ++ String.intercalate ", " entry.2.toList ++ "\n")

/-! ## By texts -/

variable {literals other : LiteralMap} {tape source target text : String} {texts : SortedSet String}

theorem get?_eq_some_iff : literals.get? tape = some texts ↔ (tape, texts) ∈ literals.entries := by
  obtain ⟨entries, hsorted⟩ := literals
  change entries.lookup tape = some texts ↔ (tape, texts) ∈ entries
  induction entries with
  | nil => simp
  | cons entry rest ih =>
    obtain ⟨hfirst, hrest⟩ := List.pairwise_cons.mp hsorted
    rw [List.lookup_cons, List.mem_cons]
    split
    · next heq =>
      cases eq_of_beq heq
      have hnew : (entry.1, texts) ∉ rest := fun h =>
        String.lt_irrefl _ (hfirst entry.1 (List.mem_map_of_mem (f := (·.1)) h))
      simp [hnew, Prod.ext_iff, eq_comm]
    · next hne =>
      have hne : (tape, texts) ≠ entry := fun h => by simp [← h] at hne
      simpa [hne] using ih hrest

theorem mem_texts : text ∈ literals.texts tape ↔ ∃ entry ∈ literals.entries, entry.1 = tape ∧ text ∈ entry.2 := by
  have hentries : (∃ entry ∈ literals.entries, entry.1 = tape ∧ text ∈ entry.2) ↔
      ∃ texts, literals.get? tape = some texts ∧ text ∈ texts := by
    simp only [get?_eq_some_iff]
    exact ⟨fun ⟨⟨_, texts⟩, he, heq, ht⟩ => ⟨texts, heq ▸ he, ht⟩, fun ⟨texts, he, ht⟩ => ⟨_, he, rfl, ht⟩⟩
  rw [hentries, LiteralMap.texts]
  cases literals.get? tape with
  | none => simp [← SortedSet.mem_def]
  | some texts => simp [SortedSet.mem_def]

theorem mem_texts_extend :
    text ∈ (literals.extend target texts).texts tape ↔ text ∈ literals.texts tape ∨ target = tape ∧ text ∈ texts := by
  rw [mem_texts, mem_texts]
  change (∃ entry ∈ extendEntries target texts literals.entries, _) ↔ _
  generalize literals.entries = entries
  induction entries with
  | nil => simp [extendEntries]
  | cons entry rest ih =>
    simp only [extendEntries]
    split
    · simp only [List.mem_cons, exists_eq_or_imp]
      exact or_comm
    · split
      · simp only [List.mem_cons, exists_eq_or_imp, ih, or_assoc]
      · next hlt hgt =>
        cases Std.Trichotomous.trichotomous (r := (· < ·)) target entry.1 hlt hgt
        simp only [List.mem_cons, exists_eq_or_imp, SortedSet.mem_union, and_or_left, or_assoc]
        exact or_congr_right or_comm

theorem mem_texts_merge :
    text ∈ (literals.merge other).texts tape ↔ text ∈ literals.texts tape ∨ text ∈ other.texts tape := by
  rw [@mem_texts other, merge]
  generalize other.entries = entries
  induction entries generalizing literals with
  | nil => simp
  | cons entry rest ih =>
    simp only [List.foldl_cons, ih, mem_texts_extend, List.mem_cons, exists_eq_or_imp, or_assoc]

theorem mem_texts_remove : text ∈ (literals.remove source).texts tape ↔ text ∈ literals.texts tape ∧ tape ≠ source := by
  simp only [mem_texts, remove, List.mem_filter, decide_eq_true_eq]
  constructor
  · rintro ⟨entry, ⟨he, hne⟩, rfl, ht⟩
    exact ⟨⟨entry, he, rfl, ht⟩, hne⟩
  · rintro ⟨⟨entry, he, rfl, ht⟩, hne⟩
    exact ⟨entry, ⟨he, hne⟩, rfl, ht⟩

theorem mem_texts_rename : text ∈ (literals.rename source target).texts tape ↔
    ∃ origin, text ∈ literals.texts origin ∧ (if origin = source then target else origin) = tape := by
  unfold rename
  split
  · next found hfound =>
    have hsource : text ∈ literals.texts source ↔ text ∈ found := by rw [LiteralMap.texts, hfound]; rfl
    rw [mem_texts_extend, mem_texts_remove, ← hsource]
    constructor
    · rintro (⟨h, hne⟩ | ⟨rfl, h⟩)
      · exact ⟨tape, h, if_neg hne⟩
      · exact ⟨source, h, if_pos rfl⟩
    · rintro ⟨origin, h, rfl⟩
      split
      · next heq => exact .inr ⟨rfl, heq ▸ h⟩
      · next hne => exact .inl ⟨h, hne⟩
  · next hnone =>
    have hsource : text ∉ literals.texts source := by rw [LiteralMap.texts, hnone]; exact List.not_mem_nil
    constructor
    · intro h
      exact ⟨tape, h, if_neg (by rintro rfl; exact hsource h)⟩
    · rintro ⟨origin, h, rfl⟩
      rwa [if_neg (by rintro rfl; exact hsource h)]

theorem sorted_texts (literals : LiteralMap) (tape : String) : (literals.texts tape).Pairwise (· < ·) :=
  ((literals.get? tape).getD ∅).sorted

/-! ## By tapes -/

theorem mem_tapes_of_mem_texts (h : text ∈ literals.texts tape) : tape ∈ literals.tapes := by
  obtain ⟨entry, he, rfl, -⟩ := mem_texts.mp h
  exact List.mem_map_of_mem he

theorem tapes_extend (literals : LiteralMap) (tape : String) (texts : SortedSet String) :
    (literals.extend tape texts).tapes = literals.tapes.insert tape := by
  simp only [tapes, extend, map_fst_extendEntries, SortedSet.insert]

theorem mem_tapes_merge : tape ∈ (literals.merge other).tapes ↔ tape ∈ literals.tapes ∨ tape ∈ other.tapes := by
  change _ ↔ _ ∨ tape ∈ other.entries.map (·.1)
  rw [merge]
  generalize other.entries = entries
  induction entries generalizing literals with
  | nil => simp
  | cons entry rest ih => simp [ih, tapes_extend, or_assoc, or_left_comm]

/-- A rename of a tape that is not there changes nothing. -/
theorem rename_of_notMem_tapes (h : source ∉ literals.tapes) : literals.rename source target = literals := by
  unfold rename
  split
  · next texts hsource =>
    exact absurd (List.mem_map_of_mem (f := (·.1)) (get?_eq_some_iff.mp hsource)) h
  · rfl

theorem mem_tapes_remove : tape ∈ (literals.remove source).tapes ↔ tape ∈ literals.tapes ∧ tape ≠ source := by
  change tape ∈ (literals.entries.filter (·.1 ≠ source)).map (·.1) ↔ tape ∈ literals.entries.map (·.1) ∧ tape ≠ source
  simp only [List.mem_map, List.mem_filter, decide_eq_true_eq]
  constructor
  · rintro ⟨entry, ⟨he, hne⟩, rfl⟩
    exact ⟨⟨entry, he, rfl⟩, hne⟩
  · rintro ⟨⟨entry, he, rfl⟩, hne⟩
    exact ⟨entry, ⟨he, hne⟩, rfl⟩

theorem tapes_rename (literals : LiteralMap) (source target : String) :
    (literals.rename source target).tapes = literals.tapes.rename source target := by
  by_cases hsource : source ∈ literals.tapes
  · obtain ⟨entry, he, rfl⟩ := List.mem_map.mp hsource
    rw [rename, get?_eq_some_iff.mpr he]
    refine SortedSet.ext fun tape => ?_
    simp only [tapes_extend, SortedSet.mem_insert, mem_tapes_remove, TapeSet.mem_rename, hsource, and_true]
    exact or_congr_right and_comm
  · rw [rename_of_notMem_tapes hsource, TapeSet.rename_of_notMem hsource]

/-! ## No tape without a text -/

def Occupied (literals : LiteralMap) : Prop := ∀ tape ∈ literals.tapes, ∃ text, text ∈ literals.texts tape

theorem occupied_empty : Occupied ∅ := fun tape h => absurd h (SortedSet.not_mem_empty tape)

theorem Occupied.insert (h : literals.Occupied) (tape text : String) : (literals.insert tape text).Occupied := by
  intro tape' ht
  rw [LiteralMap.insert, tapes_extend, SortedSet.mem_insert] at ht
  rcases ht with rfl | ht
  · exact ⟨text, mem_texts_extend.mpr (.inr ⟨rfl, SortedSet.mem_singleton.mpr rfl⟩)⟩
  · obtain ⟨text', htext⟩ := h tape' ht
    exact ⟨text', mem_texts_extend.mpr (.inl htext)⟩

theorem Occupied.merge (h : literals.Occupied) (hother : other.Occupied) : (literals.merge other).Occupied := by
  intro tape ht
  rcases mem_tapes_merge.mp ht with ht | ht
  · obtain ⟨text, htext⟩ := h tape ht
    exact ⟨text, mem_texts_merge.mpr (.inl htext)⟩
  · obtain ⟨text, htext⟩ := hother tape ht
    exact ⟨text, mem_texts_merge.mpr (.inr htext)⟩

theorem Occupied.rename (h : literals.Occupied) (source target : String) :
    (literals.rename source target).Occupied := by
  intro tape ht
  rw [tapes_rename, TapeSet.rename, SortedSet.mem_map] at ht
  obtain ⟨origin, horigin, rfl⟩ := ht
  obtain ⟨text, htext⟩ := h origin horigin
  exact ⟨text, mem_texts_rename.mpr ⟨origin, htext, rfl⟩⟩

theorem Occupied.mem_tapes_iff (h : literals.Occupied) : tape ∈ literals.tapes ↔ ∃ text, text ∈ literals.texts tape :=
  ⟨h tape, fun ⟨_, htext⟩ => mem_tapes_of_mem_texts htext⟩

end LiteralMap

end SheetGrammar
