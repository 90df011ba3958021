import Mathlib.Data.List.Basic
import SheetGrammar.Canonical.Printer
import SheetGrammar.Proofs.CollectionWalk

/-!
Letter case and scopes. Two spellings of a name have one key, but a name inside a collection is looked up by the key of
a longer text, and a capital sigma becomes one letter or another by what stands around it. A dot does not keep the
letters on its two sides apart: `Σ` has the key `σ`, and in `A.Σ` it is at the end of a word and gives `a.ς`.

- `Text.meetsCased_lowerChars`: lower-casing takes letters to letters, so a text looks the same to the letters beside
  it, which cannot tell the characters of one class apart (`SameClass`).
- `Text.opensOnFinalSigma`: the texts that are affected. Their first letter is a capital sigma, and no letter follows
  it.
- `Symbol.key_append_congr`: spellings of one key have one key behind any text, if both are affected or neither.
- `Grammar.qualifyNames_respelled_iff`: these are the spellings that no collection tells apart.
-/

namespace SheetGrammar

namespace Text

/-! ## Letters become letters -/

/-- The code points of some ranges, as the bits of a number. -/
def rangeBits (ranges : List (Nat × Nat)) : Nat :=
  ranges.foldr (fun range bits => (2 ^ (range.2 + 1 - range.1) - 1) <<< range.1 ||| bits) 0

theorem testBit_rangeBits (ranges : List (Nat × Nat)) (n : Nat) :
    (rangeBits ranges).testBit n = ranges.any fun range => range.1 ≤ n && n ≤ range.2 := by
  induction ranges with
  | nil => simp [rangeBits]
  | cons range rest ih =>
    have hrange :
        ((2 ^ (range.2 + 1 - range.1) - 1) <<< range.1).testBit n = (decide (range.1 ≤ n) && decide (n ≤ range.2)) := by
      rw [Nat.testBit_shiftLeft, Nat.testBit_two_pow_sub_one, Bool.eq_iff_iff]
      simp only [Bool.and_eq_true, decide_eq_true_eq]
      omega
    rw [rangeBits, List.foldr_cons, Nat.testBit_or, hrange, List.any_cons]
    exact congrArg _ ih

/-- Whether a code point is that of a letter that is never passed over. -/
def isLetterCode (n : Nat) : Bool := (rangeBits casedRanges).testBit n && !(rangeBits caseIgnorableRanges).testBit n

def CaseRun.joinsLetters (run : CaseRun) : Bool :=
  (List.range (run.last + 1 - run.first)).all fun i =>
    !Nat.beq (i % run.step) 0 || (isLetterCode (run.first + i) && isLetterCode (run.target + i))

theorem caseRuns_join : caseRuns.all CaseRun.joinsLetters = true := by decide +kernel

theorem isLetterCode_of_covers {run : CaseRun} (hrun : run ∈ caseRuns) {n : Nat} (hc : run.covers n = true) :
    isLetterCode n = true ∧ isLetterCode (run.target + (n - run.first)) = true := by
  simp only [CaseRun.covers, Bool.and_eq_true, decide_eq_true_eq, beq_iff_eq] at hc
  obtain ⟨⟨hfirst, hlast⟩, hstep⟩ := hc
  have hjoins := List.all_eq_true.mp caseRuns_join run hrun
  have hpoint := List.all_eq_true.mp hjoins (n - run.first) (List.mem_range.mpr (by omega))
  rw [hstep, show run.first + (n - run.first) = n by omega] at hpoint
  simpa using hpoint

theorem isCased_eq_testBit (c : Char) : isCased c = (rangeBits casedRanges).testBit c.toNat :=
  (testBit_rangeBits casedRanges c.toNat).symm

theorem isCaseIgnorable_eq_testBit (c : Char) : isCaseIgnorable c = (rangeBits caseIgnorableRanges).testBit c.toNat :=
  (testBit_rangeBits caseIgnorableRanges c.toNat).symm

theorem isLetterCode_toNat {c : Char} (h : isLetterCode c.toNat = true) :
    isCased c = true ∧ isCaseIgnorable c = false := by
  rw [isCased_eq_testBit, isCaseIgnorable_eq_testBit]
  simpa [isLetterCode] using h

structure SameClass (c d : Char) : Prop where
  cased : isCased c = isCased d
  ignorable : isCaseIgnorable c = isCaseIgnorable d

instance (c d : Char) : Decidable (SameClass c d) :=
  decidable_of_iff
    ((rangeBits casedRanges).testBit c.toNat = (rangeBits casedRanges).testBit d.toNat ∧
      (rangeBits caseIgnorableRanges).testBit c.toNat = (rangeBits caseIgnorableRanges).testBit d.toNat) (by
    rw [← isCased_eq_testBit, ← isCased_eq_testBit, ← isCaseIgnorable_eq_testBit, ← isCaseIgnorable_eq_testBit]
    exact ⟨fun h => ⟨h.1, h.2⟩, fun h => ⟨h.cased, h.ignorable⟩⟩)

theorem sameClass_of_letters {c d : Char} (hc : isLetterCode c.toNat = true) (hd : isLetterCode d.toNat = true) :
    SameClass c d :=
  ⟨(isLetterCode_toNat hc).1.trans (isLetterCode_toNat hd).1.symm,
    (isLetterCode_toNat hc).2.trans (isLetterCode_toNat hd).2.symm⟩

theorem sameClass_toLower : ∀ n : Fin 128, SameClass (Char.ofNat n) (Char.ofNat n).toLower := by decide +kernel

theorem sameClass_ofNat_lowerCode (c : Char) : SameClass c (Char.ofNat (lowerCode c.toNat)) := by
  cases hf : caseRuns.find? (·.covers c.toNat) with
  | none =>
    have hcode : lowerCode c.toNat = c.toNat := by simp only [lowerCode, hf]
    rw [hcode, Char.ofNat_toNat]
    exact ⟨rfl, rfl⟩
  | some run =>
    have hcovers := List.find?_some hf
    obtain ⟨hc, hlower⟩ := isLetterCode_of_covers (List.mem_of_find?_eq_some hf) hcovers
    refine sameClass_of_letters hc ?_
    rw [(toNat_lowerCode hf).1, (lowerCode_covered hf).1]
    exact hlower

/-- What a character becomes begins with one of its class, and the rest is passed over. -/
theorem lowerChar_class (c : Char) :
    ∃ d rest, lowerChar c = d :: rest ∧ SameClass c d ∧ ∀ e ∈ rest, isCaseIgnorable e = true := by
  unfold lowerChar
  by_cases hascii : c.toNat < 0x80
  · have hlower := sameClass_toLower ⟨c.toNat, hascii⟩
    rw [Char.ofNat_toNat] at hlower
    exact ⟨c.toLower, [], if_pos hascii, hlower, by simp⟩
  · by_cases hi : c = 'İ'
    · have hdot : isCaseIgnorable '\u0307' = true := by
        rw [isCaseIgnorable_eq_testBit]
        decide +kernel
      rw [if_neg hascii, if_pos hi, hi]
      exact ⟨'i', ['\u0307'], rfl, by decide +kernel, by simpa using hdot⟩
    · rw [if_neg hascii, if_neg hi]
      exact ⟨_, [], rfl, sameClass_ofNat_lowerCode c, by simp⟩

/-- The letters that a sigma becomes are of its class. -/
theorem sameClass_sigma (final : Bool) : SameClass 'Σ' (if final then 'ς' else 'σ') := by
  cases final <;> decide +kernel

variable {before before' cs ds front : List Char}

theorem meetsCased_cons (c : Char) (cs : List Char) :
    meetsCased (c :: cs) = if isCaseIgnorable c then meetsCased cs else isCased c := by
  unfold meetsCased
  rw [List.dropWhile_cons]
  by_cases hc : isCaseIgnorable c = true
  · rw [if_pos hc, if_pos hc]
  · rw [if_neg hc, if_neg hc]

theorem meetsCased_append_of_ignorable (h : ∀ c ∈ front, isCaseIgnorable c = true) :
    meetsCased (front ++ cs) = meetsCased cs := by
  induction front with
  | nil => rfl
  | cons c rest ih =>
    obtain ⟨hc, hrest⟩ := List.forall_mem_cons.mp h
    rw [List.cons_append, meetsCased_cons, if_pos hc, ih hrest]

theorem meetsCased_append_congr (h : meetsCased cs = meetsCased ds) (front : List Char) :
    meetsCased (front ++ cs) = meetsCased (front ++ ds) := by
  induction front with
  | nil => exact h
  | cons c rest ih => rw [List.cons_append, List.cons_append, meetsCased_cons, meetsCased_cons, ih]

theorem SameClass.meetsCased {c d : Char} (h : SameClass c d) (hmeets : meetsCased cs = meetsCased ds) :
    meetsCased (c :: cs) = meetsCased (d :: ds) := by
  rw [meetsCased_cons, meetsCased_cons, h.cased, h.ignorable, hmeets]

/-- A text meets a letter where its lower-case form does. -/
theorem meetsCased_lowerChars (before cs : List Char) : meetsCased (lowerChars before cs) = meetsCased cs := by
  induction cs generalizing before with
  | nil => rfl
  | cons c after ih =>
    rw [lowerChars]
    by_cases hs : c = 'Σ'
    · rw [if_pos hs, hs, List.singleton_append]
      exact ((sameClass_sigma _).meetsCased (ih _).symm).symm
    · rw [if_neg hs]
      obtain ⟨d, rest, hlower, hclass, hrest⟩ := lowerChar_class c
      rw [hlower, List.cons_append]
      refine (hclass.meetsCased ?_).symm
      rw [meetsCased_append_of_ignorable hrest, ih]

/-! ## Texts behind other texts -/

/-- Of what stands before a text only the nearest letter matters. -/
theorem lowerChars_congr (h : meetsCased before = meetsCased before') :
    lowerChars before cs = lowerChars before' cs := by
  induction cs generalizing before before' with
  | nil => rfl
  | cons c after ih =>
    have hnext : meetsCased (c :: before) = meetsCased (c :: before') := meetsCased_append_congr h [c]
    rw [lowerChars, lowerChars, ih hnext, endsWord, endsWord, h]

/-- A text looks the same to what stands before it as another that meets a letter where it does. -/
theorem lowerChars_append_congr (hmeets : meetsCased cs = meetsCased ds)
    (hlower : ∀ before, lowerChars before cs = lowerChars before ds) :
    lowerChars before (front ++ cs) = lowerChars before (front ++ ds) := by
  induction front generalizing before with
  | nil => exact hlower before
  | cons c rest ih =>
    rw [List.cons_append, List.cons_append, lowerChars, lowerChars, ih, endsWord, endsWord,
      meetsCased_append_congr hmeets rest]

/-- Whether the first letter of a text is a capital sigma that no letter follows. Behind another letter it ends a
word. -/
def opensOnFinalSigma (cs : List Char) : Bool :=
  match cs.dropWhile isCaseIgnorable with
  | [] => false
  | c :: after => c = 'Σ' && !meetsCased after

theorem opensOnFinalSigma_cons (c : Char) (cs : List Char) :
    opensOnFinalSigma (c :: cs) = if isCaseIgnorable c then opensOnFinalSigma cs else c = 'Σ' && !meetsCased cs := by
  unfold opensOnFinalSigma
  rw [List.dropWhile_cons]
  by_cases hc : isCaseIgnorable c = true
  · rw [if_pos hc, if_pos hc]
  · rw [if_neg hc, if_neg hc]

/-- What is passed over has no case. -/
theorem lowered_of_ignorable {c : Char} (h : isCaseIgnorable c = true) : Lowered c := by
  refine lowered_of_not_covered ?_ ?_
  · intro hi
    rw [hi, isCaseIgnorable_eq_testBit] at h
    revert h
    decide +kernel
  · cases hf : caseRuns.find? (·.covers c.toNat) with
    | none => rfl
    | some run =>
      have hcovers := List.find?_some hf
      have hletter := (isLetterCode_of_covers (List.mem_of_find?_eq_some hf) hcovers).1
      rw [(isLetterCode_toNat hletter).2] at h
      cases h

/-- Other texts become the same behind any text. -/
theorem lowerChars_of_not_opens (h : opensOnFinalSigma cs = false) (before before' : List Char) :
    lowerChars before cs = lowerChars before' cs := by
  induction cs generalizing before before' with
  | nil => rfl
  | cons c after ih =>
    rw [opensOnFinalSigma_cons] at h
    by_cases hc : isCaseIgnorable c = true
    · rw [if_pos hc] at h
      rw [lowerChars, lowerChars, if_neg (lowered_of_ignorable hc).1, if_neg (lowered_of_ignorable hc).1, ih h]
    · rw [if_neg hc] at h
      -- from here on the letter before is this one
      have hnext : meetsCased (c :: before) = meetsCased (c :: before') := by
        rw [meetsCased_cons, meetsCased_cons, if_neg hc, if_neg hc]
      rw [lowerChars, lowerChars, lowerChars_congr hnext]
      by_cases hs : c = 'Σ'
      · have hafter : meetsCased after = true := by simpa [hs] using h
        simp [endsWord, hafter]
      · rw [if_neg hs, if_neg hs]

/-- A text that opens on a sigma becomes one text or another by whether there is a letter before it. -/
theorem lowerChars_of_opens (h : opensOnFinalSigma cs = true) :
    ∃ front back, (∀ c ∈ front, isCaseIgnorable c = true) ∧
      ∀ before, lowerChars before cs = front ++ (if meetsCased before then 'ς' else 'σ') :: back := by
  induction cs with
  | nil => cases h
  | cons c after ih =>
    rw [opensOnFinalSigma_cons] at h
    by_cases hc : isCaseIgnorable c = true
    · rw [if_pos hc] at h
      obtain ⟨front, back, hfront, hlower⟩ := ih h
      refine ⟨c :: front, back, List.forall_mem_cons.mpr ⟨hc, hfront⟩, ?_⟩
      intro before
      obtain ⟨hs, hself⟩ := lowered_of_ignorable hc
      rw [lowerChars, if_neg hs, hself, hlower, meetsCased_cons, if_pos hc]
      rfl
    · rw [if_neg hc, Bool.and_eq_true, decide_eq_true_eq, Bool.not_eq_true'] at h
      refine ⟨[], lowerChars ['Σ'] after, by simp, ?_⟩
      intro before
      have hnext : meetsCased (c :: before) = meetsCased ['Σ'] := by
        rw [meetsCased_cons, if_neg hc, h.1]
        decide +kernel
      rw [lowerChars, if_pos h.1, lowerChars_congr hnext, endsWord, h.2]
      simp

/-- Texts with one lower-case form become the same behind another text if both open on a sigma or neither does. -/
theorem lowerChars_of_eq (h : lowerChars [] cs = lowerChars [] ds)
    (hopens : opensOnFinalSigma cs = opensOnFinalSigma ds) (before : List Char) :
    lowerChars before cs = lowerChars before ds := by
  by_cases hcs : opensOnFinalSigma cs = true
  · obtain ⟨front, back, hfront, hlower⟩ := lowerChars_of_opens hcs
    obtain ⟨front', back', hfront', hlower'⟩ := lowerChars_of_opens (hopens ▸ hcs)
    -- the sigma is the first character that is not passed over
    have hsigma : isCaseIgnorable 'σ' = false := by
      rw [isCaseIgnorable_eq_testBit]
      decide +kernel
    have hsplit : front ++ 'σ' :: back = front' ++ 'σ' :: back' := by
      have := h
      rwa [hlower, hlower'] at this
    have hfronts := congrArg (List.takeWhile isCaseIgnorable) hsplit
    rw [List.takeWhile_append_of_pos hfront, List.takeWhile_append_of_pos hfront',
      List.takeWhile_cons_of_neg (by simp [hsigma]), List.takeWhile_cons_of_neg (by simp [hsigma]), List.append_nil,
      List.append_nil] at hfronts
    rw [hfronts, List.append_cancel_left_eq] at hsplit
    rw [hlower, hlower', hfronts, (List.cons.inj hsplit).2]
  · rw [lowerChars_of_not_opens (Bool.eq_false_iff.mpr hcs) before [], h,
      lowerChars_of_not_opens (Bool.eq_false_iff.mpr (hopens ▸ hcs)) [] before]

/-- If only one of two texts opens on a sigma, they differ behind a letter. -/
theorem lowerChars_ne (h : lowerChars [] cs = lowerChars [] ds) (hcs : opensOnFinalSigma cs = true)
    (hds : opensOnFinalSigma ds = false) (hbefore : meetsCased before = true) :
    lowerChars before cs ≠ lowerChars before ds := by
  obtain ⟨front, back, -, hlower⟩ := lowerChars_of_opens hcs
  intro he
  rw [lowerChars_of_not_opens hds before [], ← h, hlower, hlower, hbefore] at he
  have hletter := (List.cons.inj (List.append_cancel_left he)).1
  revert hletter
  decide +kernel

end Text

namespace Symbol

variable {name other : String}

def opensOnFinalSigma (name : String) : Bool := Text.opensOnFinalSigma name.toList

theorem lowerChars_of_key (h : key name = key other) :
    Text.lowerChars [] name.toList = Text.lowerChars [] other.toList := by
  have htext := congrArg String.toList h
  simpa [key, Text.lowercase] using htext

/-- On its own such a name has a small sigma. -/
theorem sigma_mem_key (h : opensOnFinalSigma name = true) : 'σ' ∈ (key name).toList := by
  obtain ⟨front, back, -, hlower⟩ := Text.lowerChars_of_opens h
  rw [key, Text.lowercase, String.toList_ofList, hlower]
  simp [Text.meetsCased]

/-- Spellings of one key have one key behind any text, if both change there or neither does. -/
theorem key_append_congr (h : key name = key other) (hopens : opensOnFinalSigma name = opensOnFinalSigma other)
    (front : String) : key (front ++ name) = key (front ++ other) := by
  have hlower := lowerChars_of_key h
  have hmeets : Text.meetsCased name.toList = Text.meetsCased other.toList := by
    rw [← Text.meetsCased_lowerChars [], hlower, Text.meetsCased_lowerChars]
  rw [key, key, Text.lowercase, Text.lowercase, String.toList_append, String.toList_append]
  exact congrArg String.ofList (Text.lowerChars_append_congr hmeets (Text.lowerChars_of_eq hlower hopens))

theorem key_qualifyIn_congr (h : key name = key other) (hopens : opensOnFinalSigma name = opensOnFinalSigma other)
    (scope : List String) : key (qualifyIn scope name) = key (qualifyIn scope other) := by
  unfold qualifyIn qualify
  split
  · exact h
  · exact key_append_congr h hopens _

/-- Inside a collection `A` a name begins anew, behind a letter and a dot. -/
theorem toList_key_inside (name : String) :
    (key (qualifyIn ["A"] name)).toList = 'a' :: '.' :: Text.lowerChars ['.', 'A'] name.toList := by
  have hname : qualifyIn ["A"] name = "A." ++ name := by
    rw [qualifyIn_of_ne (by decide)]
    simp [dotted_cons]
  have hA : Text.lowerChar 'A' = ['a'] := by decide +kernel
  have hdot : Text.lowerChar '.' = ['.'] := by decide +kernel
  rw [hname, key, Text.lowercase, String.toList_ofList, String.toList_append]
  simp [Text.lowerChars, hA, hdot]

end Symbol

/-! ## Embeds in another spelling -/

open SheetGrammar.Symbol

/-- What a name refers to is read off its keys inside the scopes. -/
theorem Namespace.find?_congr {space : Namespace} {name other : String}
    (h : ∀ scope, key (qualifyIn scope name) = key (qualifyIn scope other)) (scope : List String) :
    space.find? name scope = space.find? other scope := by
  induction scope with
  | nil => exact congrArg space.atKey? (h [])
  | cons inner outer ih => rw [find?, find?, h, ih]

namespace Grammar

def respellEmbed (spell : String → String) : Grammar → Grammar
  | embed m symbol => embed m (spell symbol)
  | g => g

def respell (spell : String → String) : Grammar → Grammar := rewrite (respellEmbed spell)

/-- The spelling that puts `name` in the place of `slot`. -/
def putFor (slot name symbol : String) : String := if symbol = slot then name else symbol

variable {spell spell' : String → String} {refer : String → Option String}

theorem respell_eq (spell : String → String) (g : Grammar) :
    g.respell spell = respellEmbed spell (g.mapChildren (respell spell)) := rewrite_eq _ g

theorem respell_table (spell : String → String) (m : Mark) (scoping : Scoping) (entries : List (String × Grammar)) :
    (table m scoping entries).respell spell =
      table m scoping (entries.map fun entry => (entry.1, entry.2.respell spell)) := respell_eq ..

/-- Spellings that refer to the same come to the same. -/
theorem resolve_respell (h : ∀ symbol, refer (spell symbol) = refer (spell' symbol)) (g : Grammar) :
    (g.respell spell).resolve refer = (g.respell spell').resolve refer := by
  induction g using inductChildren with
  | step g ih =>
    have hchildren : (g.mapChildren (respell spell)).mapChildren (resolve refer) =
        (g.mapChildren (respell spell')).mapChildren (resolve refer) := by
      rw [mapChildren_mapChildren, mapChildren_mapChildren, mapChildren_congr ih]
    rw [respell_eq, respell_eq, resolve_eq, resolve_eq]
    cases g with
    | embed m symbol => simp only [mapChildren, respellEmbed, resolveEmbed, h]
    | _ => exact congrArg (resolveEmbed refer) hchildren

end Grammar

def Definition.respell (spell : String → String) (d : Definition) : Definition :=
  { d with body := d.body.respell spell }

theorem Definition.partition_respell (spell : String → String) (seen : List String) (ds : List Definition) :
    partition seen (ds.map (respell spell)) =
      ((partition seen ds).1.map (respell spell), (partition seen ds).2.map (respell spell)) := by
  induction ds generalizing seen with
  | nil => rfl
  | cons d rest ih =>
    have hkey : (d.respell spell).key = d.key := rfl
    rw [List.map_cons, partition, partition, hkey]
    by_cases hd : d.key ∈ seen
    · rw [if_pos hd, if_pos hd, ih]
      rfl
    · rw [if_neg hd, if_neg hd, ih]
      rfl

namespace Grammar

theorem definitionsOf_respell (spell : String → String) (scope : List String) (name : String) (g : Grammar) :
    definitionsOf scope name (g.respell spell) = (definitionsOf scope name g).map (Definition.respell spell) := by
  induction g generalizing scope name with
  | table m scoping entries ih =>
    cases scoping with
    | flat => rfl
    | nested =>
      rw [respell_table, definitionsOf, definitionsOf, definitions_eq, definitions_eq, List.flatMap_map,
        List.map_flatMap]
      exact List.flatMap_congr fun entry he => ih entry he _ _
  | _ => rfl

theorem collectionKeysOf_respell (spell : String → String) (scope : List String) (name : String) (g : Grammar) :
    collectionKeysOf scope name (g.respell spell) = collectionKeysOf scope name g := by
  induction g generalizing scope name with
  | table m scoping entries ih =>
    cases scoping with
    | flat => rfl
    | nested =>
      rw [respell_table, collectionKeysOf, collectionKeysOf, collectionKeys_eq, collectionKeys_eq, List.flatMap_map]
      exact congrArg _ (List.flatMap_congr fun entry he => ih entry he _ _)
  | _ => rfl

theorem flattening_respell (spell : String → String) (entries : List (String × Grammar)) :
    flattening (entries.map fun entry => (entry.1, entry.2.respell spell)) =
      ((flattening entries).1.map (Definition.respell spell),
        (flattening entries).2.map (Definition.respell spell)) := by
  have hdefinitions : definitions [] (entries.map fun entry => (entry.1, entry.2.respell spell)) =
      (definitions [] entries).map (Definition.respell spell) := by
    rw [definitions_eq, definitions_eq, List.flatMap_map, List.map_flatMap]
    exact List.flatMap_congr fun entry _ => definitionsOf_respell spell [] entry.1 entry.2
  rw [flattening, hdefinitions, Definition.partition_respell]
  rfl

/-- How embeds are spelled has no bearing on what there is to refer to. -/
theorem namespaceOf_respell (spell : String → String) (entries : List (String × Grammar)) :
    namespaceOf (entries.map fun entry => (entry.1, entry.2.respell spell)) = namespaceOf entries := by
  have hkeys :
      collectionKeys [] (entries.map fun entry => (entry.1, entry.2.respell spell)) = collectionKeys [] entries := by
    rw [collectionKeys_eq, collectionKeys_eq, List.flatMap_map]
    exact List.flatMap_congr fun entry _ => collectionKeysOf_respell spell [] entry.1 entry.2
  rw [namespaceOf, flattening_respell, hkeys, namespaceOf, Namespace.ofDefinitions, Namespace.ofDefinitions,
    List.map_map]
  rfl

/-- Names with one key in every scope can stand for each other in the embeds of a collection. -/
theorem qualifyNames_respell {spell spell' : String → String}
    (h : ∀ symbol scope, key (qualifyIn scope (spell symbol)) = key (qualifyIn scope (spell' symbol))) (m : Mark)
    (members : List (String × Grammar)) :
    ((table m .nested members).respell spell).qualifyNames.1 =
      ((table m .nested members).respell spell').qualifyNames.1 := by
  have hrefer (d : Definition) (symbol : String) :
      d.refer (namespaceOf members) (spell symbol) = d.refer (namespaceOf members) (spell' symbol) :=
    Namespace.find?_congr (h symbol) _
  rw [respell_table, respell_table, qualifyNames, qualifyNames, flattening_respell, flattening_respell,
    namespaceOf_respell, namespaceOf_respell]
  simp only [List.map_map]
  refine congrArg _ (List.map_congr_left fun d _ => ?_)
  exact Prod.ext rfl (resolve_respell (hrefer d) d.body)

/-! ## Spellings that a collection tells apart -/

def loneSymbol (name : String) : List (String × Grammar) := [("A", .table {} .nested [(name, .embed {} "")])]

theorem flattening_loneSymbol (name : String) :
    flattening (loneSymbol name) = ([⟨qualifyIn ["A"] name, ["A"], .embed {} ""⟩], []) := by
  simp [flattening, loneSymbol, definitions, definitionsOf, Definition.partition]

theorem namespaceOf_loneSymbol (name : String) :
    namespaceOf (loneSymbol name) = ⟨[(key (qualifyIn ["A"] name), qualifyIn ["A"] name)], [key "A"]⟩ := by
  rw [namespaceOf, flattening_loneSymbol]
  rfl

theorem qualifyNames_loneSymbol (name other : String) :
    ((table {} .nested (loneSymbol name)).respell (putFor "" other)).qualifyNames.1 =
      table (.ofPos none) .flat
        [(qualifyIn ["A"] name, (embed {} other).resolve ((namespaceOf (loneSymbol name)).find? · ["A"]))] := by
  rw [respell_table, qualifyNames, flattening_respell, namespaceOf_respell, flattening_loneSymbol]
  rfl

/-- The symbol is found by its own name. -/
theorem find?_loneSymbol (name : String) :
    (namespaceOf (loneSymbol name)).find? name ["A"] = some (qualifyIn ["A"] name) := by
  simp [namespaceOf_loneSymbol, Namespace.find?, Namespace.atKey?]

/-- It is not found by a spelling that changes behind the letter of its collection. -/
theorem find?_loneSymbol_of_opens {name other : String} (h : key other = key name)
    (hother : opensOnFinalSigma other = true) (hname : opensOnFinalSigma name = false) :
    (namespaceOf (loneSymbol name)).find? other ["A"] = none := by
  have hlower := lowerChars_of_key h
  have hA : (key "A").toList = ['a'] := by decide +kernel
  have hmeets : Text.meetsCased ['.', 'A'] = true := by decide +kernel
  -- inside the collection there is another letter where the symbol has its sigma
  have hinside : key (qualifyIn ["A"] other) ≠ key (qualifyIn ["A"] name) := by
    intro he
    have htexts := congrArg String.toList he
    rw [toList_key_inside, toList_key_inside, List.cons.injEq, List.cons.injEq] at htexts
    exact Text.lowerChars_ne hlower hother hname hmeets htexts.2.2
  have hinside' : key (qualifyIn ["A"] other) ≠ key "A" := by
    intro he
    have htexts := congrArg String.toList he
    rw [toList_key_inside, hA] at htexts
    cases htexts
  -- outside of it there is nothing but the collection
  have houtside : key other ≠ key (qualifyIn ["A"] name) := by
    intro he
    have hlength := congrArg (fun text : String => text.toList.length) he
    rw [toList_key_inside, Text.lowerChars_of_not_opens hname _ [], ← hlower, key, Text.lowercase,
      String.toList_ofList] at hlength
    simp only [List.length_cons] at hlength
    omega
  have houtside' : key other ≠ key "A" := by
    intro he
    have hsigma := sigma_mem_key hother
    rw [he, hA] at hsigma
    exact absurd hsigma (by decide)
  simp [namespaceOf_loneSymbol, Namespace.find?, Namespace.atKey?, hinside, hinside', houtside, houtside']

theorem qualifyNames_loneSymbol_ne {name other : String} (h : key other = key name)
    (hother : opensOnFinalSigma other = true) (hname : opensOnFinalSigma name = false) :
    ((table {} .nested (loneSymbol name)).respell (putFor "" other)).qualifyNames.1 ≠
      ((table {} .nested (loneSymbol name)).respell (putFor "" name)).qualifyNames.1 := by
  rw [qualifyNames_loneSymbol, qualifyNames_loneSymbol, resolve_embed, resolve_embed, find?_loneSymbol,
    find?_loneSymbol_of_opens h hother hname]
  simp

/-- Two spellings of one key come to the same in every tree of collections, wherever they are embedded, exactly if both
change behind a letter or neither does. -/
theorem qualifyNames_respelled_iff (name other : String) (hkey : key name = key other) :
    (∀ (m : Mark) (members : List (String × Grammar)) (slot : String),
      ((table m .nested members).respell (putFor slot name)).qualifyNames.1 =
        ((table m .nested members).respell (putFor slot other)).qualifyNames.1) ↔
      opensOnFinalSigma name = opensOnFinalSigma other := by
  constructor
  · intro h
    cases hname : opensOnFinalSigma name with
    | true =>
      cases hother : opensOnFinalSigma other with
      | true => rfl
      | false => exact absurd (h {} (loneSymbol other) "") (qualifyNames_loneSymbol_ne hkey hname hother)
    | false =>
      cases hother : opensOnFinalSigma other with
      | true => exact absurd (h {} (loneSymbol name) "").symm (qualifyNames_loneSymbol_ne hkey.symm hother hname)
      | false => rfl
  · intro hopens m members slot
    refine qualifyNames_respell ?_ m members
    intro symbol scope
    unfold putFor
    split
    · exact key_qualifyIn_congr hkey hopens scope
    · rfl

/-- The sigma at the end of a word is none of those that change, so that the two spellings of the word come to the
same. -/
theorem qualifyNames_respelled_odos :
    key "ΟΔΟΣ" = key "Οδος" ∧ opensOnFinalSigma "ΟΔΟΣ" = opensOnFinalSigma "Οδος" ∧
      ((∀ (m : Mark) (members : List (String × Grammar)) (slot : String),
        ((table m .nested members).respell (putFor slot "ΟΔΟΣ")).qualifyNames.1 =
          ((table m .nested members).respell (putFor slot "Οδος")).qualifyNames.1) ↔
        opensOnFinalSigma "ΟΔΟΣ" = opensOnFinalSigma "Οδος") := by
  have hkey : key "ΟΔΟΣ" = key "Οδος" := by decide +kernel
  exact ⟨hkey, by decide +kernel, qualifyNames_respelled_iff "ΟΔΟΣ" "Οδος" hkey⟩

/-- A symbol `σ` is found by its own name, and not by the capital letter. -/
theorem qualifyNames_capital_sigma :
    let inside : Grammar := .table {} .nested [("σ", .literal {} "t" "x"), ("m", .embed {} "σ"), ("n", .embed {} "Σ")]
    let g : Grammar := .table {} .nested [("A", inside)]
    key "Σ" = key "σ" ∧ g.qualifyNames.1.render = "(qual (A.σ t:x) (A.m $A.σ) (A.n ∅))" ∧
      g.qualifyNames.2 = [⟨.unresolvedSymbol "Σ", none⟩] := by
  decide +kernel

end Grammar

end SheetGrammar
