import SheetGrammar.SortedSet

/-!
Tapes are named by texts; a tape set lists the tapes that a grammar writes on, in the order of their code points.
-/

namespace SheetGrammar

/-- The tape that a literal is written on until a `single` gives it a name. -/
def anonymousTape : String := ".T"

instance tapeTrans : Trans (α := String) (· < ·) (· < ·) (· < ·) := ⟨String.lt_trans⟩

abbrev TapeSet := SortedSet String

namespace TapeSet

/-- The set after one tape is given another's name; nothing changes if it has no such tape. -/
def rename (tapes : TapeSet) (source target : String) : TapeSet :=
  tapes.map fun tape => if tape = source then target else tape

theorem mem_rename {tapes : TapeSet} {source target x : String} :
    x ∈ tapes.rename source target ↔ (x = target ∧ source ∈ tapes) ∨ (x ≠ source ∧ x ∈ tapes) := by
  rw [rename, SortedSet.mem_map]
  constructor
  · rintro ⟨a, ha, rfl⟩
    by_cases h : a = source
    · subst h
      exact .inl ⟨by simp, ha⟩
    · exact .inr ⟨by simp [h], by simpa [h] using ha⟩
  · rintro (⟨rfl, h⟩ | ⟨hne, h⟩)
    · exact ⟨source, h, by simp⟩
    · exact ⟨x, h, by simp [hne]⟩

/-- A rename of a tape that is not there changes nothing. -/
theorem rename_of_notMem {tapes : TapeSet} {source target : String} (h : source ∉ tapes) :
    tapes.rename source target = tapes := by
  refine SortedSet.ext fun x => ?_
  rw [mem_rename]
  constructor
  · rintro (⟨-, hs⟩ | ⟨-, hx⟩)
    · exact absurd hs h
    · exact hx
  · intro hx
    exact .inr ⟨fun he => h (he ▸ hx), hx⟩

def unionAll (sets : List TapeSet) : TapeSet := sets.foldl (· ∪ ·) ∅

def render (tapes : TapeSet) : String := "\x7b" ++ String.intercalate ", " tapes.toList ++ "\x7d"

end TapeSet

end SheetGrammar
