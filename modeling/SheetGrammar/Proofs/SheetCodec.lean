import SheetGrammar.Proofs.JsonText
import SheetGrammar.Proofs.Translation
import SheetGrammar.Sheet.Decode
import SheetGrammar.Sheet.Encode

/-!
Sheets written and read back. A value has many forms: fields may be left out, may stand in any order and among others,
and a record may be an array. What is read from any of them is written in the one full form.

- `Tree.ofValue_encode`: the full form is read back.
- `Tree.contracts_ofValue`: the full form of what is read nests no deeper than the form that it was read from. A field
  that was left out is written as something that nests no deeper than the fields that must be there (`Decode.Within`).
- `Tree.natural_encode`: the full form has only natural numbers, so its text is read back.
- `Tree.decode_encode_decode`: a tree that nests to the limit at most is read back from its text, and what is read from
  any text is such a tree.
-/

namespace SheetGrammar

open Json (Value)

/-! ## Values and their parts -/

namespace Json.Value

/-- Induction with a hypothesis for all items of an array and for all values in an object. -/
@[elab_as_elim]
theorem induct {motive : Value → Prop} (null : motive .null) (bool : ∀ b, motive (.bool b))
    (number : ∀ n, motive (.number n)) (string : ∀ s, motive (.string s))
    (array : ∀ items, (∀ v ∈ items, motive v) → motive (.array items))
    (object : ∀ fields, (∀ field ∈ fields, motive field.2) → motive (.object fields)) : ∀ v, motive v
  | .null => null
  | .bool b => bool b
  | .number n => number n
  | .string s => string s
  | .array items => array items fun v _ => induct null bool number string array object v
  | .object fields => object fields fun field _ => induct null bool number string array object field.2
termination_by v => sizeOf v
decreasing_by
  · rename_i h; have := List.sizeOf_lt_of_mem h; simp only [Value.array.sizeOf_spec]; omega
  · rename_i h
    have hfield := List.sizeOf_lt_of_mem h
    have hsnd : sizeOf field.2 < sizeOf field := by cases field; simp only [Prod.mk.sizeOf_spec]; omega
    simp only [Value.object.sizeOf_spec]; omega

theorem depth_string (s : String) : (Value.string s).depth = 0 := rfl

theorem depth_object_le {fields : List (String × Value)} {n : Nat} :
    (Value.object fields).depth ≤ 1 + n ↔ ∀ field ∈ fields, field.2.depth ≤ n := by
  rw [Value.depth, Nat.add_le_add_iff_left, depthFields_le_iff]

theorem depth_le_depthItems {items : List Value} {v : Value} (h : v ∈ items) : v.depth ≤ Value.depthItems items :=
  depthItems_le_iff.mp (Nat.le_refl _) v h

theorem depth_le_depthFields {fields : List (String × Value)} {field : String × Value} (h : field ∈ fields) :
    field.2.depth ≤ Value.depthFields fields :=
  depthFields_le_iff.mp (Nat.le_refl _) field h

end Json.Value

/-! ## Decoders -/

namespace Decode

section Decoders

variable {α β σ : Type} {n : Nat} {name : String} {v : Value} {slot slot' : Option α} {write : α → Value}
  {read : Value → Decoded α}

theorem bind_eq_ok {x : Decoded α} {f : α → Decoded β} {b : β} (h : x >>= f = .ok b) :
    ∃ a, x = .ok a ∧ f a = .ok b := by
  cases x with
  | error e => cases h
  | ok a => exact ⟨a, rfl, h⟩

theorem map_eq_ok {x : Decoded α} {f : α → β} {b : β} (h : x.map f = .ok b) : ∃ a, x = .ok a ∧ f a = b := by
  cases x with
  | error e => cases h
  | ok a =>
    cases h
    exact ⟨a, rfl, rfl⟩

@[simp] theorem ok_bind (a : α) (f : α → Decoded β) : (Except.ok a : Decoded α) >>= f = f a := rfl

@[simp] theorem map_ok (a : α) (f : α → β) : (Except.ok a : Decoded α).map f = .ok (f a) := rfl

@[simp] theorem functor_map_ok (a : α) (f : α → β) : f <$> (Except.ok a : Decoded α) = .ok (f a) := rfl

@[simp] theorem fill_none_ok (name : String) (a : α) : fill name none (.ok a) = .ok (some a) := rfl

@[simp] theorem required_some (name : String) (a : α) : required name (some a) = .ok a := rfl

theorem required_eq_ok {a : α} (h : required name slot = .ok a) : slot = some a := by
  cases slot with
  | none => cases h
  | some b =>
    cases h
    rfl

theorem next_eq_ok {index : Nat} {items rest : List Value} (h : next index name items = .ok (v, rest)) :
    items = v :: rest := by
  cases items with
  | nil => cases h
  | cons w items =>
    cases h
    rfl

/-- A run over the fields of an object keeps what every step keeps. -/
theorem foldlM_keeps {P : σ → Prop} {step : σ → String × Value → Decoded σ} {fields : List (String × Value)}
    (hstep : ∀ s key v s', (key, v) ∈ fields → P s → step s (key, v) = .ok s' → P s') {s s' : σ} (hs : P s)
    (h : fields.foldlM step s = .ok s') : P s' := by
  induction fields generalizing s with
  | nil =>
    cases h
    exact hs
  | cons field rest ih =>
    obtain ⟨key, v⟩ := field
    rw [List.foldlM_cons] at h
    obtain ⟨next, hnext, hrest⟩ := bind_eq_ok h
    have hnext := hstep s key v next List.mem_cons_self hs hnext
    exact ih (fun s key v s' hfield => hstep s key v s' (List.mem_cons_of_mem _ hfield)) hnext hrest

/-- If the value is read, what is read is written no deeper than the value is. -/
def Contracts (write : α → Value) (read : Value → Decoded α) (v : Value) : Prop :=
  ∀ a, read v = .ok a → (write a).depth ≤ v.depth

/-- What is read from an item is written no deeper than the items are. -/
theorem Contracts.depth_le_depthItems (h : Contracts write read v) {a : α} (hread : read v = .ok a) {items : List Value}
    (hv : v ∈ items) : (write a).depth ≤ Value.depthItems items :=
  Nat.le_trans (h a hread) (Value.depth_le_depthItems hv)

def Within (write : α → Value) (n : Nat) (slot : Option α) : Prop := ∀ a, slot = some a → (write a).depth ≤ n

theorem within_none : Within write n none := nofun

theorem within_fill (h : Contracts write read v) (hv : v.depth ≤ n) (hfill : fill name slot (read v) = .ok slot') :
    Within write n slot' := by
  cases slot with
  | some _ => cases hfill
  | none =>
    obtain ⟨a, ha, hslot⟩ := map_eq_ok hfill
    subst hslot
    intro b hb
    cases hb
    exact Nat.le_trans (h a ha) hv

/-- What a slot without a value stands for is written no deeper than any other. -/
theorem Within.getD (h : Within write n slot) {a : α} (ha : (write a).depth ≤ n) : (write (slot.getD a)).depth ≤ n := by
  cases slot with
  | none => exact ha
  | some b => exact h b rfl

theorem contracts_record {ofFields : List (String × Value) → Decoded α} {ofItems : List Value → Decoded α}
    (hfields : ∀ fields a, ofFields fields = .ok a → (write a).depth ≤ 1 + Value.depthFields fields)
    (hitems : ∀ items a, ofItems items = .ok a → (write a).depth ≤ 1 + Value.depthItems items) (v : Value) :
    Contracts write (record name ofFields ofItems) v := by
  intro a ha
  cases v with
  | object fields => exact hfields fields a ha
  | array items => exact hitems items a ha
  | _ => cases ha

def writeList (write : α → Value) (items : List α) : Value := .array (items.map write)

theorem list_writeList {items : List α} (h : ∀ a ∈ items, read (write a) = .ok a) :
    list read (writeList write items) = .ok items := by
  have hmap : (items.map write).mapM read = .ok items := by
    induction items with
    | nil => rfl
    | cons a rest ih =>
      obtain ⟨ha, hrest⟩ := List.forall_mem_cons.mp h
      rw [List.map_cons, List.mapM_cons, ha, ih hrest]
      rfl
  exact hmap

theorem natural_writeList (items : List α) (h : ∀ a ∈ items, (write a).Natural) : (writeList write items).Natural := by
  refine .array ?_
  intro v hv
  obtain ⟨a, ha, rfl⟩ := List.mem_map.mp hv
  exact h a ha

theorem contracts_list (h : ∀ items, v = .array items → ∀ w ∈ items, Contracts write read w) :
    Contracts (writeList write) (list read) v := by
  intro as has
  cases v with
  | array items =>
    have hitems := h items rfl
    clear h
    change items.mapM read = .ok as at has
    rw [writeList, Value.depth, Value.depth]
    induction items generalizing as with
    | nil =>
      cases has
      exact Nat.le_refl _
    | cons w rest ih =>
      obtain ⟨hw, hrest⟩ := List.forall_mem_cons.mp hitems
      rw [List.mapM_cons] at has
      obtain ⟨a, ha, has⟩ := bind_eq_ok has
      obtain ⟨as', has', hcons⟩ := bind_eq_ok has
      cases hcons
      have hdepth := ih as' hrest has'
      have hfirst := hw a ha
      rw [List.map_cons, Value.depthItems, Value.depthItems]
      omega
  | _ => cases has

end Decoders

end Decode

open Decode

/-! ## Cells -/

namespace Position

theorem ofValue_encode (layer : Layer) (pos : Position) : ofValue layer pos.encode = .ok pos := rfl

theorem depth_encode (pos : Position) : pos.encode.depth = 1 := rfl

theorem natural_encode (pos : Position) : pos.encode.Natural := by
  refine .object ?_
  simp [Value.Natural.string, Value.Natural.number]

theorem contracts_ofValue (layer : Layer) (v : Value) : Contracts encode (ofValue layer) v := by
  refine contracts_record ?_ ?_ v
  · intro fields pos _
    rw [depth_encode]
    omega
  · intro items pos _
    rw [depth_encode]
    omega

end Position

namespace Cell

theorem ofValue_encode (layer : Layer) (cell : Cell) : ofValue layer cell.encode = .ok cell := rfl

theorem depth_encode (cell : Cell) : cell.encode.depth = 2 := rfl

theorem natural_encode (cell : Cell) : cell.encode.Natural := by
  refine .object ?_
  simp [Value.Natural.string, cell.pos.natural_encode]

theorem depth_le_of_ofFields {layer : Layer} {fields : List (String × Value)} {cell : Cell}
    (h : ofFields layer fields = .ok cell) : cell.encode.depth ≤ 1 + Value.depthFields fields := by
  obtain ⟨⟨content, pos⟩, hfold, h⟩ := bind_eq_ok h
  have hslots : Within Position.encode (Value.depthFields fields) pos := by
    refine foldlM_keeps (P := fun slots : Option String × Option Position => Within _ _ slots.2) ?_ within_none hfold
    rintro ⟨content, pos⟩ key v slots hfield hslots hstep
    dsimp only at hstep
    split at hstep
    · obtain ⟨_, -, hstep⟩ := bind_eq_ok hstep
      cases hstep
      exact hslots
    · obtain ⟨_, hfill, hstep⟩ := bind_eq_ok hstep
      cases hstep
      exact within_fill (Position.contracts_ofValue layer v) (Value.depth_le_depthFields hfield) hfill
    · cases hstep
      exact hslots
  obtain ⟨text, -, h⟩ := bind_eq_ok h
  obtain ⟨place, hpos, h⟩ := bind_eq_ok h
  cases h
  have hplace := hslots place (required_eq_ok hpos)
  rw [Position.depth_encode] at hplace
  rw [depth_encode]
  omega

theorem depth_le_of_ofItems {layer : Layer} {items : List Value} {cell : Cell} (h : ofItems layer items = .ok cell) :
    cell.encode.depth ≤ 1 + Value.depthItems items := by
  obtain ⟨⟨content, rest⟩, hnext, h⟩ := bind_eq_ok h
  obtain ⟨text, -, h⟩ := bind_eq_ok h
  obtain ⟨⟨place, rest'⟩, hnext', h⟩ := bind_eq_ok h
  obtain ⟨pos, hpos, h⟩ := bind_eq_ok h
  cases next_eq_ok hnext
  cases next_eq_ok hnext'
  have hplace := Position.contracts_ofValue layer place pos hpos
  rw [Position.depth_encode] at hplace
  rw [depth_encode, Value.depthItems, Value.depthItems]
  omega

theorem contracts_ofValue (layer : Layer) (v : Value) : Contracts encode (ofValue layer) v :=
  contracts_record (fun _ _ => depth_le_of_ofFields) (fun _ _ => depth_le_of_ofItems) v

end Cell

namespace Sheet

/-! ## Headers and operators -/

namespace Header

theorem ofValue_encode (layer : Layer) (header : Header) : ofValue layer header.encode = .ok header := by
  induction header generalizing layer with
  | unique inner ih =>
    have htag : tagOfFields layer "kind" variants [("kind", .string "unique"), ("inner", inner.encode)] = .ok .unique :=
      rfl
    rw [encode, ofValue, htag]
    simp [innerField, ih]
  | _ => rfl

theorem depth_encode_unique (inner : Header) : (unique inner).encode.depth = 1 + inner.encode.depth := by
  simp [encode, Value.depth, Value.depthFields]

theorem natural_encode (header : Header) : header.encode.Natural := by
  induction header with
  | unique inner ih =>
    refine .object ?_
    simp [Value.Natural.string, ih]
  | _ =>
    refine .object ?_
    simp [Value.Natural.string]

/-- The inner header is read from a field of the object. -/
theorem exists_of_innerField {fields : List (String × Value)} {found : Option Header} {inner : Header}
    (h : innerField found fields = .ok (some inner)) :
    found = some inner ∨ ∃ field ∈ fields, ofValue .inner field.2 = .ok inner := by
  induction fields generalizing found with
  | nil =>
    cases h
    exact .inl rfl
  | cons field rest ih =>
    obtain ⟨key, v⟩ := field
    unfold innerField at h
    split at h
    · split at h
      · cases h
      · split at h
        · next first hfirst =>
          rcases ih h with hfound | ⟨field, hfield, hread⟩
          · cases hfound
            exact .inr ⟨_, List.mem_cons_self, hfirst⟩
          · exact .inr ⟨field, List.mem_cons_of_mem _ hfield, hread⟩
        · cases h
    · rcases ih h with hfound | ⟨field, hfield, hread⟩
      · exact .inl hfound
      · exact .inr ⟨field, List.mem_cons_of_mem _ hfield, hread⟩

theorem exists_of_unique_object {layer : Layer} {fields : List (String × Value)} {inner : Header}
    (h : ofValue layer (.object fields) = .ok (.unique inner)) :
      ∃ field ∈ fields, ofValue .inner field.2 = .ok inner := by
  unfold ofValue at h
  split at h
  case h_3 =>
    split at h
    · next hinner =>
      cases h
      exact (exists_of_innerField hinner).resolve_left nofun
    · cases h
    · cases h
  case h_1 | h_4 | h_7 => cases h
  all_goals
    obtain ⟨_, -, h⟩ := map_eq_ok h
    cases h

theorem exists_of_unique_array {layer : Layer} {items : List Value} {inner : Header}
    (h : ofValue layer (.array items) = .ok (.unique inner)) : ∃ v ∈ items, ofValue .inner v = .ok inner := by
  cases items with
  | nil => cases h
  | cons tag items =>
    unfold ofValue at h
    split at h
    case h_3 =>
      split at h
      · cases h
      · split at h
        · next hinner _ =>
          cases h
          exact ⟨_, by simp, hinner⟩
        · cases h
        · cases h
    case h_1 => cases h
    all_goals
      obtain ⟨_, -, h⟩ := map_eq_ok h
      cases h

theorem contracts_ofValue (layer : Layer) (v : Value) : Contracts encode (ofValue layer) v := by
  induction v using Value.induct generalizing layer with
  | object fields ih =>
    intro header hheader
    cases header with
    | unique inner =>
      obtain ⟨field, hfield, hinner⟩ := exists_of_unique_object hheader
      have hdepth := ih field hfield .inner inner hinner
      have hle := Value.depth_le_depthFields hfield
      rw [depth_encode_unique, Value.depth]
      omega
    | _ => exact Nat.le_add_right _ _
  | array items ih =>
    intro header hheader
    cases header with
    | unique inner =>
      obtain ⟨v, hv, hinner⟩ := exists_of_unique_array hheader
      have hdepth := ih v hv .inner inner hinner
      have hle := Value.depth_le_depthItems hv
      rw [depth_encode_unique, Value.depth]
      omega
    | _ => exact Nat.le_add_right _ _
  | _ =>
    intro header hheader
    cases hheader

end Header

namespace Operator

theorem ofValue_encode (layer : Layer) (operator : Operator) : ofValue layer operator.encode = .ok operator := by
  cases operator <;> rfl

theorem depth_encode (operator : Operator) : operator.encode.depth = 1 := by
  cases operator <;> rfl

theorem natural_encode (operator : Operator) : operator.encode.Natural := by
  cases operator <;> exact .object (by simp [Value.Natural.string])

theorem contracts_ofValue (layer : Layer) (v : Value) : Contracts encode (ofValue layer) v := by
  intro operator hoperator
  rw [depth_encode]
  cases v with
  | object fields => exact Nat.le_add_right _ _
  | array items => exact Nat.le_add_right _ _
  | _ => cases hoperator

end Operator

/-! ## Grids -/

namespace Column

theorem ofValue_encode (column : Column) : ofValue .inner column.encode = .ok column := by
  simp [ofValue, encode, record, ofFields, Header.ofColumn, Header.ofValue_encode, Position.ofValue_encode]

theorem natural_encode (column : Column) : column.encode.Natural := by
  refine .object ?_
  simp [column.header.natural_encode, column.pos.natural_encode]

theorem depth_encode_le {column : Column} {n : Nat} (hheader : column.header.encode.depth ≤ n)
    (hpos : column.pos.encode.depth ≤ n) : column.encode.depth ≤ 1 + n :=
  Value.depth_object_le.mpr (by simp [hheader, hpos])

theorem depth_le_of_ofFields {fields : List (String × Value)} {column : Column}
    (h : ofFields .inner fields = .ok column) : column.encode.depth ≤ 1 + Value.depthFields fields := by
  obtain ⟨⟨header, pos⟩, hfold, h⟩ := bind_eq_ok h
  have hslots : Within Header.encode (Value.depthFields fields) header ∧
      Within Position.encode (Value.depthFields fields) pos := by
    refine foldlM_keeps (P := fun slots : Option Header × Option Position => Within _ _ slots.1 ∧ Within _ _ slots.2) ?_
      ⟨within_none, within_none⟩ hfold
    rintro ⟨header, pos⟩ key v slots hfield ⟨hheader, hpos⟩ hstep
    have hdepth := Value.depth_le_depthFields hfield
    dsimp only at hstep
    split at hstep
    · obtain ⟨_, hfill, hstep⟩ := bind_eq_ok hstep
      cases hstep
      exact ⟨within_fill (Header.contracts_ofValue .inner v) hdepth hfill, hpos⟩
    · obtain ⟨_, hfill, hstep⟩ := bind_eq_ok hstep
      cases hstep
      exact ⟨hheader, within_fill (Position.contracts_ofValue .inner v) hdepth hfill⟩
    · cases hstep
      exact ⟨hheader, hpos⟩
  obtain ⟨found, hfound, h⟩ := bind_eq_ok h
  obtain ⟨place, hplace, h⟩ := bind_eq_ok h
  cases h
  exact depth_encode_le (hslots.1 found (required_eq_ok hfound)) (hslots.2 place (required_eq_ok hplace))

theorem depth_le_of_ofItems {items : List Value} {column : Column} (h : ofItems .inner items = .ok column) :
    column.encode.depth ≤ 1 + Value.depthItems items := by
  obtain ⟨⟨first, rest⟩, hnext, h⟩ := bind_eq_ok h
  obtain ⟨header, hheader, h⟩ := bind_eq_ok h
  obtain ⟨⟨second, rest'⟩, hnext', h⟩ := bind_eq_ok h
  obtain ⟨pos, hpos, h⟩ := bind_eq_ok h
  obtain ⟨_, -, h⟩ := bind_eq_ok h
  cases h
  cases next_eq_ok hnext
  cases next_eq_ok hnext'
  exact depth_encode_le ((Header.contracts_ofValue .inner first).depth_le_depthItems hheader (by simp))
    ((Position.contracts_ofValue .inner second).depth_le_depthItems hpos (by simp))

theorem contracts_ofValue (v : Value) : Contracts encode (ofValue .inner) v :=
  contracts_record (fun _ _ => depth_le_of_ofFields) (fun _ _ => depth_le_of_ofItems) v

end Column

namespace Row

theorem ofValue_encode (row : Row) : ofValue .inner row.encode = .ok row := by
  have hcells : list (Cell.ofValue .inner) (.array (row.cells.map Cell.encode)) = .ok row.cells :=
    list_writeList fun cell _ => cell.ofValue_encode .inner
  simp [ofValue, encode, record, ofFields, hcells, Position.ofValue_encode]

theorem natural_encode (row : Row) : row.encode.Natural := by
  refine .object ?_
  have hcells := natural_writeList row.cells fun cell _ => cell.natural_encode
  simpa [writeList, row.pos.natural_encode] using hcells

theorem depth_encode_le {row : Row} {n : Nat} (hpos : row.pos.encode.depth ≤ n)
    (hcells : (writeList Cell.encode row.cells).depth ≤ n) : row.encode.depth ≤ 1 + n :=
  Value.depth_object_le.mpr (by simpa [writeList, hpos] using hcells)

theorem depth_le_of_ofFields {fields : List (String × Value)} {row : Row} (h : ofFields .inner fields = .ok row) :
    row.encode.depth ≤ 1 + Value.depthFields fields := by
  obtain ⟨⟨pos, cells⟩, hfold, h⟩ := bind_eq_ok h
  have hslots : Within Position.encode (Value.depthFields fields) pos ∧
      Within (writeList Cell.encode) (Value.depthFields fields) cells := by
    refine foldlM_keeps
      (P := fun slots : Option Position × Option (List Cell) => Within _ _ slots.1 ∧ Within _ _ slots.2) ?_
      ⟨within_none, within_none⟩ hfold
    rintro ⟨pos, cells⟩ key v slots hfield ⟨hpos, hcells⟩ hstep
    have hdepth := Value.depth_le_depthFields hfield
    dsimp only at hstep
    split at hstep
    · obtain ⟨_, hfill, hstep⟩ := bind_eq_ok hstep
      cases hstep
      exact ⟨within_fill (Position.contracts_ofValue .inner v) hdepth hfill, hcells⟩
    · obtain ⟨_, hfill, hstep⟩ := bind_eq_ok hstep
      cases hstep
      exact ⟨hpos, within_fill (contracts_list fun _ _ w _ => Cell.contracts_ofValue .inner w) hdepth hfill⟩
    · cases hstep
      exact ⟨hpos, hcells⟩
  obtain ⟨place, hplace, h⟩ := bind_eq_ok h
  cases h
  have hpos := hslots.1 place (required_eq_ok hplace)
  exact depth_encode_le hpos (hslots.2.getD hpos)

theorem depth_le_of_ofItems {items : List Value} {row : Row} (h : ofItems .inner items = .ok row) :
    row.encode.depth ≤ 1 + Value.depthItems items := by
  obtain ⟨⟨first, rest⟩, hnext, hread⟩ := bind_eq_ok h
  obtain ⟨pos, hpos, hrow⟩ := bind_eq_ok hread
  cases next_eq_ok hnext
  have hpos : pos.encode.depth ≤ Value.depthItems (first :: rest) :=
    (Position.contracts_ofValue .inner first).depth_le_depthItems hpos List.mem_cons_self
  cases rest with
  | nil =>
    cases hrow
    exact depth_encode_le hpos hpos
  | cons second rest =>
    obtain ⟨cells, hcells, hrow⟩ := bind_eq_ok hrow
    obtain ⟨_, -, hrow⟩ := bind_eq_ok hrow
    cases hrow
    have hlist := contracts_list (v := second) fun _ _ w _ => Cell.contracts_ofValue .inner w
    exact depth_encode_le hpos (hlist.depth_le_depthItems hcells (by simp))

theorem contracts_ofValue (v : Value) : Contracts encode (ofValue .inner) v :=
  contracts_record (fun _ _ => depth_le_of_ofFields) (fun _ _ => depth_le_of_ofItems) v

end Row

namespace Grid

structure Fits (n : Nat) (grid : Grid) : Prop where
  cell : grid.cell.encode.depth ≤ n
  columns : (writeList Column.encode grid.columns).depth ≤ n
  rows : (writeList Row.encode grid.rows).depth ≤ n

theorem fits_of_ofFields {fields : List (String × Value)} {grid : Grid} (h : ofFields .inner fields = .ok grid) :
    grid.Fits (Value.depthFields fields) := by
  obtain ⟨⟨cell, columns, rows⟩, hfold, h⟩ := bind_eq_ok h
  have hslots : Within Cell.encode (Value.depthFields fields) cell ∧
      Within (writeList Column.encode) (Value.depthFields fields) columns ∧
        Within (writeList Row.encode) (Value.depthFields fields) rows := by
    refine foldlM_keeps (P := fun slots : Option Cell × Option (List Column) × Option (List Row) =>
      Within _ _ slots.1 ∧ Within _ _ slots.2.1 ∧ Within _ _ slots.2.2) ?_ ⟨within_none, within_none, within_none⟩ hfold
    rintro ⟨cell, columns, rows⟩ key v slots hfield ⟨hcell, hcolumns, hrows⟩ hstep
    have hdepth := Value.depth_le_depthFields hfield
    dsimp only at hstep
    split at hstep
    · obtain ⟨_, hfill, hstep⟩ := bind_eq_ok hstep
      cases hstep
      exact ⟨within_fill (Cell.contracts_ofValue .inner v) hdepth hfill, hcolumns, hrows⟩
    · obtain ⟨_, hfill, hstep⟩ := bind_eq_ok hstep
      cases hstep
      exact ⟨hcell, within_fill (contracts_list fun _ _ w _ => Column.contracts_ofValue w) hdepth hfill, hrows⟩
    · obtain ⟨_, hfill, hstep⟩ := bind_eq_ok hstep
      cases hstep
      exact ⟨hcell, hcolumns, within_fill (contracts_list fun _ _ w _ => Row.contracts_ofValue w) hdepth hfill⟩
    · cases hstep
      exact ⟨hcell, hcolumns, hrows⟩
  obtain ⟨corner, hcorner, h⟩ := bind_eq_ok h
  obtain ⟨heads, hheads, h⟩ := bind_eq_ok h
  cases h
  obtain ⟨hcell, hcolumns, hrows⟩ := hslots
  have hcolumns := hcolumns heads (required_eq_ok hheads)
  -- no rows are written as an empty array, which nests no deeper than the columns
  have hempty : (writeList Row.encode []).depth ≤ Value.depthFields fields :=
    Nat.le_trans (Nat.le_add_right _ _) hcolumns
  exact ⟨hcell corner (required_eq_ok hcorner), hcolumns, hrows.getD hempty⟩

theorem fits_of_ofItems {items : List Value} {grid : Grid} (h : ofItems .inner items = .ok grid) :
    grid.Fits (Value.depthItems items) := by
  obtain ⟨⟨first, rest⟩, hnext, hread⟩ := bind_eq_ok h
  obtain ⟨cell, hcell, hread⟩ := bind_eq_ok hread
  obtain ⟨⟨second, rest'⟩, hnext', hread⟩ := bind_eq_ok hread
  obtain ⟨columns, hcolumns, hgrid⟩ := bind_eq_ok hread
  cases next_eq_ok hnext
  cases next_eq_ok hnext'
  have hcell : cell.encode.depth ≤ Value.depthItems (first :: second :: rest') :=
    (Cell.contracts_ofValue .inner first).depth_le_depthItems hcell (by simp)
  have hcolumns : (writeList Column.encode columns).depth ≤ Value.depthItems (first :: second :: rest') :=
    (contracts_list fun _ _ w _ => Column.contracts_ofValue w).depth_le_depthItems hcolumns (by simp)
  cases rest' with
  | nil =>
    cases hgrid
    exact ⟨hcell, hcolumns, Nat.le_trans (Nat.le_add_right _ _) hcolumns⟩
  | cons third rest =>
    obtain ⟨rows, hrows, hgrid⟩ := bind_eq_ok hgrid
    obtain ⟨_, -, hgrid⟩ := bind_eq_ok hgrid
    cases hgrid
    have hlist := contracts_list (v := third) fun _ _ w _ => Row.contracts_ofValue w
    exact ⟨hcell, hcolumns, hlist.depth_le_depthItems hrows (by simp)⟩

theorem ofFields_encode (tag : Value) (grid : Grid) :
    ofFields .inner [("type", tag), ("cell", grid.cell.encode), ("headers", writeList Column.encode grid.columns),
      ("rows", writeList Row.encode grid.rows)] = .ok grid := by
  have hcolumns : list (Column.ofValue .inner) (writeList Column.encode grid.columns) = .ok grid.columns :=
    list_writeList fun column _ => column.ofValue_encode
  have hrows : list (Row.ofValue .inner) (writeList Row.encode grid.rows) = .ok grid.rows :=
    list_writeList fun row _ => row.ofValue_encode
  simp [ofFields, Cell.ofValue_encode, hcolumns, hrows]

end Grid

/-! ## Trees -/

namespace Tree

theorem encodeAll_eq (trees : List Tree) : encodeAll trees = trees.map encode := by
  induction trees with
  | nil => rfl
  | cons tree rest ih => rw [encodeAll, ih, List.map_cons]

theorem ofValues_eq (items : List Value) : ofValues items = items.mapM (ofValue .inner) := by
  induction items with
  | nil => rfl
  | cons v rest ih => rw [ofValues, ih, List.mapM_cons]

theorem childrenOfValue_eq (v : Value) : childrenOfValue v = list (ofValue .inner) v := by
  cases v with
  | array items => exact ofValues_eq items
  | _ => rfl

theorem ofValue_encode (layer : Layer) (tree : Tree) : ofValue layer tree.encode = .ok tree := by
  induction tree generalizing layer with
  | op cell operator sibling child hsibling hchild =>
    have htag : tagOfFields layer "type" variants
      [("type", .string "op"), ("cell", cell.encode), ("op", operator.encode),
      ("sibling", sibling.encode), ("child", child.encode)] = .ok .op := rfl
    rw [encode, ofValue, htag]
    simp [opFields, OpSlots.toTree, cell.ofValue_encode, operator.ofValue_encode, hsibling, hchild]
  | grid content =>
    have htag : tagOfFields layer "type" variants [("type", .string "grid"), ("cell", content.cell.encode),
      ("headers", .array (content.columns.map Column.encode)), ("rows", .array (content.rows.map Row.encode))] =
        .ok .grid := rfl
    have hgrid := Grid.ofFields_encode (.string "grid") content
    rw [writeList, writeList] at hgrid
    rw [encode, ofValue, htag]
    simp [hgrid]
  | collection cell name children ih =>
    have htag : tagOfFields layer "type" variants [("type", .string "collection"), ("cell", cell.encode),
      ("name", .string name), ("children", .array (encodeAll children))] = .ok .collection := rfl
    have hchildren : childrenOfValue (.array (encodeAll children)) = .ok children := by
      rw [childrenOfValue_eq, encodeAll_eq]
      exact list_writeList fun tree htree => ih tree htree .inner
    rw [encode, ofValue, htag]
    simp [collectionFields, CollectionSlots.toTree, cell.ofValue_encode, text, hchildren]
  | empty => rfl

theorem natural_encode (tree : Tree) : tree.encode.Natural := by
  induction tree with
  | op cell operator sibling child hsibling hchild =>
    refine .object ?_
    simp [Value.Natural.string, cell.natural_encode, operator.natural_encode, hsibling, hchild]
  | grid content =>
    have hcolumns := natural_writeList content.columns fun column _ => column.natural_encode
    have hrows := natural_writeList content.rows fun row _ => row.natural_encode
    rw [writeList] at hcolumns hrows
    refine .object ?_
    simp [Value.Natural.string, content.cell.natural_encode, hcolumns, hrows]
  | collection cell name children ih =>
    have hchildren := natural_writeList children ih
    rw [writeList, ← encodeAll_eq] at hchildren
    refine .object ?_
    simp [Value.Natural.string, cell.natural_encode, hchildren]
  | empty => exact .object (by simp [Value.Natural.string])

section Depth

variable {n : Nat} {cell : Cell} {operator : Operator} {sibling child : Tree} {name : String} {children : List Tree}

theorem depth_encode_op_le (hcell : cell.encode.depth ≤ n) (hsibling : sibling.encode.depth ≤ n)
    (hchild : child.encode.depth ≤ n) : (op cell operator sibling child).encode.depth ≤ 1 + n := by
  have hoperator : operator.encode.depth ≤ n := by
    rw [Cell.depth_encode] at hcell
    rw [Operator.depth_encode]
    omega
  exact Value.depth_object_le.mpr (by simp [Value.depth_string, hcell, hoperator, hsibling, hchild])

theorem depth_encode_collection_le (hcell : cell.encode.depth ≤ n) (hchildren : (writeList encode children).depth ≤ n) :
    (collection cell name children).encode.depth ≤ 1 + n := by
  rw [writeList, ← encodeAll_eq] at hchildren
  exact Value.depth_object_le.mpr (by simp [Value.depth_string, hcell, hchildren])

theorem depth_encode_grid_le {content : Grid} (h : content.Fits n) : (grid content).encode.depth ≤ 1 + n := by
  obtain ⟨hcell, hcolumns, hrows⟩ := h
  rw [writeList] at hcolumns hrows
  exact Value.depth_object_le.mpr (by simp [Value.depth_string, hcell, hcolumns, hrows])

/-- What a missing sibling, child or list of children is written as nests no deeper than a cell. -/
theorem depth_encode_empty_le (h : cell.encode.depth ≤ n) : empty.encode.depth ≤ n := by
  rw [Cell.depth_encode] at h
  exact Nat.le_trans (by decide) h

/-- All slots that are filled are filled with what is written to the depth at most. The operator is left out, since it
nests no deeper than a cell. -/
structure OpSlots.Fits (n : Nat) (slots : OpSlots) : Prop where
  cell : Within Cell.encode n slots.cell
  sibling : Within Tree.encode n slots.sibling
  child : Within Tree.encode n slots.child

theorem fits_opFields {fields : List (String × Value)}
    (h : ∀ field ∈ fields, Contracts encode (ofValue .inner) field.2 ∧ field.2.depth ≤ n) {slots slots' : OpSlots}
    (hslots : slots.Fits n) (hread : opFields slots fields = .ok slots') : slots'.Fits n := by
  induction fields generalizing slots with
  | nil =>
    cases hread
    exact hslots
  | cons field rest ih =>
    obtain ⟨key, v⟩ := field
    obtain ⟨⟨hv, hdepth⟩, hrest⟩ := List.forall_mem_cons.mp h
    unfold opFields at hread
    split at hread
    · obtain ⟨_, hfill, hread⟩ := bind_eq_ok hread
      refine ih hrest ?_ hread
      exact ⟨within_fill (Cell.contracts_ofValue .inner v) hdepth hfill, hslots.sibling, hslots.child⟩
    · obtain ⟨_, -, hread⟩ := bind_eq_ok hread
      refine ih hrest ?_ hread
      exact ⟨hslots.cell, hslots.sibling, hslots.child⟩
    · obtain ⟨_, hfill, hread⟩ := bind_eq_ok hread
      refine ih hrest ?_ hread
      exact ⟨hslots.cell, within_fill hv hdepth hfill, hslots.child⟩
    · obtain ⟨_, hfill, hread⟩ := bind_eq_ok hread
      refine ih hrest ?_ hread
      exact ⟨hslots.cell, hslots.sibling, within_fill hv hdepth hfill⟩
    · exact ih hrest hslots hread

theorem OpSlots.Fits.depth_le {slots : OpSlots} (h : slots.Fits n) {tree : Tree} (htree : slots.toTree = .ok tree) :
    tree.encode.depth ≤ 1 + n := by
  obtain ⟨cell, hcell, htree⟩ := bind_eq_ok htree
  obtain ⟨operator, -, htree⟩ := bind_eq_ok htree
  cases htree
  have hcell := h.cell cell (required_eq_ok hcell)
  have hempty := depth_encode_empty_le hcell
  exact depth_encode_op_le hcell (h.sibling.getD hempty) (h.child.getD hempty)

theorem depth_le_of_opItems {items : List Value} (h : ∀ v ∈ items, Contracts encode (ofValue .inner) v) {tree : Tree}
    (hread : opItems items = .ok tree) : tree.encode.depth ≤ 1 + Value.depthItems items := by
  have hitem {v : Value} {tree : Tree} (hv : v ∈ items) (htree : ofValue .inner v = .ok tree) :
      tree.encode.depth ≤ Value.depthItems items := (h v hv).depth_le_depthItems htree hv
  have hfirst {v : Value} {cell : Cell} (hv : v ∈ items) (hcell : Cell.ofValue .inner v = .ok cell) :
      cell.encode.depth ≤ Value.depthItems items := (Cell.contracts_ofValue .inner v).depth_le_depthItems hcell hv
  unfold opItems at hread
  split at hread
  · cases hread
  · obtain ⟨_, -, hread⟩ := bind_eq_ok hread
    cases hread
  · obtain ⟨cell, hcell, hread⟩ := bind_eq_ok hread
    obtain ⟨operator, -, hread⟩ := bind_eq_ok hread
    cases hread
    have hcell := hfirst (by simp) hcell
    exact depth_encode_op_le hcell (depth_encode_empty_le hcell) (depth_encode_empty_le hcell)
  · obtain ⟨cell, hcell, hread⟩ := bind_eq_ok hread
    obtain ⟨operator, -, hread⟩ := bind_eq_ok hread
    obtain ⟨sibling, hsibling, hread⟩ := bind_eq_ok hread
    cases hread
    have hcell := hfirst (by simp) hcell
    exact depth_encode_op_le hcell (hitem (by simp) hsibling) (depth_encode_empty_le hcell)
  · obtain ⟨cell, hcell, hread⟩ := bind_eq_ok hread
    obtain ⟨operator, -, hread⟩ := bind_eq_ok hread
    obtain ⟨sibling, hsibling, hread⟩ := bind_eq_ok hread
    obtain ⟨child, hchild, hread⟩ := bind_eq_ok hread
    obtain ⟨_, -, hread⟩ := bind_eq_ok hread
    cases hread
    exact depth_encode_op_le (hfirst (by simp) hcell) (hitem (by simp) hsibling) (hitem (by simp) hchild)

structure CollectionSlots.Fits (n : Nat) (slots : CollectionSlots) : Prop where
  cell : Within Cell.encode n slots.cell
  children : Within (writeList encode) n slots.children

theorem fits_collectionFields {fields : List (String × Value)}
    (h : ∀ field ∈ fields, Contracts (writeList encode) (list (ofValue .inner)) field.2 ∧ field.2.depth ≤ n)
    {slots slots' : CollectionSlots} (hslots : slots.Fits n) (hread : collectionFields slots fields = .ok slots') :
    slots'.Fits n := by
  induction fields generalizing slots with
  | nil =>
    cases hread
    exact hslots
  | cons field rest ih =>
    obtain ⟨key, v⟩ := field
    obtain ⟨⟨hv, hdepth⟩, hrest⟩ := List.forall_mem_cons.mp h
    unfold collectionFields at hread
    split at hread
    · obtain ⟨_, hfill, hread⟩ := bind_eq_ok hread
      refine ih hrest ?_ hread
      exact ⟨within_fill (Cell.contracts_ofValue .inner v) hdepth hfill, hslots.children⟩
    · obtain ⟨_, -, hread⟩ := bind_eq_ok hread
      refine ih hrest ?_ hread
      exact ⟨hslots.cell, hslots.children⟩
    · obtain ⟨_, hfill, hread⟩ := bind_eq_ok hread
      rw [childrenOfValue_eq] at hfill
      refine ih hrest ?_ hread
      exact ⟨hslots.cell, within_fill hv hdepth hfill⟩
    · exact ih hrest hslots hread

theorem CollectionSlots.Fits.depth_le {slots : CollectionSlots} (h : slots.Fits n) {tree : Tree}
    (htree : slots.toTree = .ok tree) : tree.encode.depth ≤ 1 + n := by
  obtain ⟨cell, hcell, htree⟩ := bind_eq_ok htree
  obtain ⟨name, -, htree⟩ := bind_eq_ok htree
  cases htree
  have hcell := h.cell cell (required_eq_ok hcell)
  exact depth_encode_collection_le hcell (h.children.getD (depth_encode_empty_le hcell))

theorem depth_le_of_collectionItems {items : List Value}
    (h : ∀ v ∈ items, Contracts (writeList encode) (list (ofValue .inner)) v) {tree : Tree}
    (hread : collectionItems items = .ok tree) : tree.encode.depth ≤ 1 + Value.depthItems items := by
  have hfirst {v : Value} {cell : Cell} (hv : v ∈ items) (hcell : Cell.ofValue .inner v = .ok cell) :
      cell.encode.depth ≤ Value.depthItems items := (Cell.contracts_ofValue .inner v).depth_le_depthItems hcell hv
  unfold collectionItems at hread
  split at hread
  · cases hread
  · obtain ⟨_, -, hread⟩ := bind_eq_ok hread
    cases hread
  · obtain ⟨cell, hcell, hread⟩ := bind_eq_ok hread
    obtain ⟨name, -, hread⟩ := bind_eq_ok hread
    cases hread
    have hcell := hfirst (by simp) hcell
    exact depth_encode_collection_le hcell (depth_encode_empty_le hcell)
  · next third rest =>
    obtain ⟨cell, hcell, hread⟩ := bind_eq_ok hread
    obtain ⟨name, -, hread⟩ := bind_eq_ok hread
    obtain ⟨children, hchildren, hread⟩ := bind_eq_ok hread
    obtain ⟨_, -, hread⟩ := bind_eq_ok hread
    cases hread
    rw [childrenOfValue_eq] at hchildren
    exact depth_encode_collection_le (hfirst (by simp) hcell)
      ((h third (by simp)).depth_le_depthItems hchildren (by simp))

end Depth

/-- The induction is on the value. The children of a collection stand two levels below it, so a value is also looked at
as a list of trees. -/
theorem contracts_ofValue_and_list (v : Value) :
    (∀ layer, Contracts encode (ofValue layer) v) ∧ Contracts (writeList encode) (list (ofValue .inner)) v := by
  induction v using Value.induct with
  | object fields ih =>
    refine ⟨?_, fun trees htrees => by cases htrees⟩
    intro layer tree htree
    rw [Value.depth]
    unfold ofValue at htree
    split at htree
    · cases htree
    · obtain ⟨slots, hslots, htree⟩ := bind_eq_ok htree
      refine OpSlots.Fits.depth_le (fits_opFields ?_ ⟨within_none, within_none, within_none⟩ hslots) htree
      exact fun field hfield => ⟨(ih field hfield).1 .inner, Value.depth_le_depthFields hfield⟩
    · obtain ⟨content, hcontent, rfl⟩ := map_eq_ok htree
      exact depth_encode_grid_le (Grid.fits_of_ofFields hcontent)
    · obtain ⟨slots, hslots, htree⟩ := bind_eq_ok htree
      refine CollectionSlots.Fits.depth_le (fits_collectionFields ?_ ⟨within_none, within_none⟩ hslots) htree
      exact fun field hfield => ⟨(ih field hfield).2, Value.depth_le_depthFields hfield⟩
    · cases htree
      exact Nat.le_add_right _ _
  | array items ih =>
    refine ⟨?_, contracts_list ?_⟩
    · intro layer tree htree
      cases items with
      | nil => cases htree
      | cons tag items =>
        have hle : 1 + Value.depthItems items ≤ (Value.array (tag :: items)).depth := by
          rw [Value.depth, Value.depthItems]
          omega
        unfold ofValue at htree
        split at htree
        · cases htree
        · refine Nat.le_trans (depth_le_of_opItems ?_ htree) hle
          exact fun v hv => (ih v (List.mem_cons_of_mem _ hv)).1 .inner
        · obtain ⟨content, hcontent, rfl⟩ := map_eq_ok htree
          exact Nat.le_trans (depth_encode_grid_le (Grid.fits_of_ofItems hcontent)) hle
        · refine Nat.le_trans (depth_le_of_collectionItems ?_ htree) hle
          exact fun v hv => (ih v (List.mem_cons_of_mem _ hv)).2
        · obtain ⟨_, -, rfl⟩ := map_eq_ok htree
          exact Nat.le_trans (Nat.le_add_right _ _) hle
    · intro _ hitems v hv
      cases hitems
      exact (ih v hv).1 .inner
  | _ => exact ⟨fun layer tree htree => (by cases htree), fun trees htrees => (by cases htrees)⟩

theorem contracts_ofValue (layer : Layer) (v : Value) : Contracts encode (ofValue layer) v :=
  (contracts_ofValue_and_list v).1 layer

/-! ## Texts -/

theorem decode_render {v : Value} (h : v.Natural) (hdepth : v.depth ≤ depthLimit) :
    decode v.render = ofValue .outer v := by
  rw [decode, tagged, Json.read_render h hdepth]
  dsimp only
  cases ofValue .outer v with
  | error e => rfl
  | ok tree => rfl

theorem decode_render_encode {tree : Tree} (h : tree.encode.depth ≤ depthLimit) :
    decode tree.encode.render = .ok tree :=
  (decode_render tree.natural_encode h).trans (tree.ofValue_encode .outer)

/-- What is read from a text nests to the limit at most. -/
theorem depth_le_of_decode {text : String} {tree : Tree} (h : decode text = .ok tree) :
    tree.encode.depth ≤ depthLimit := by
  unfold decode tagged at h
  split at h
  · next v trailing hread =>
    split at h
    · cases h
    · next found hfound =>
      split at h
      · cases h
      · cases h
        exact Nat.le_trans (contracts_ofValue .outer v tree hfound) (Json.depth_of_read hread)
  · split at h
    · cases h
    · cases h

/-- Writing a tree and reading its text gives the tree back, if arrays and objects nest to the limit at most in what is
written. In every tree that is read from a text they do, whatever form the text has the tree in. -/
theorem decode_encode_decode :
    (∀ tree : Tree, tree.encode.depth ≤ 127 → decode tree.encode.render = .ok tree) ∧
      ∀ (text : String) (tree : Tree), decode text = .ok tree →
        tree.encode.depth ≤ 127 ∧ decode tree.encode.render = decode text := by
  refine ⟨fun tree => decode_render_encode, ?_⟩
  intro text tree h
  have hdepth := depth_le_of_decode h
  exact ⟨hdepth, (decode_render_encode hdepth).trans h.symm⟩

/-- An operator as an array that ends before its sibling and its child. Its cell has the fields in another order, and
one that is not known. -/
def shortForm : Value :=
  .array [.string "op",
    .object [("note", .null), ("pos", .array [.string "S", .number (.natural 0), .number (.natural 1)]),
      ("text", .string "\"a\" =")],
    .array [.string "assign", .string "\"a\""]]

theorem decode_encode_decode_shortForm :
    let tree := op ⟨"\"a\" =", ⟨"S", 0, 1⟩⟩ (.assign "\"a\"") .empty .empty
    decode shortForm.render = .ok tree ∧ tree.encode.depth ≤ 127 ∧
      decode tree.encode.render = decode shortForm.render ∧ decode tree.encode.render = .ok tree := by
  intro tree
  have hnatural : shortForm.Natural := by
    refine .array ?_
    simp only [List.forall_mem_cons, List.not_mem_nil, false_implies, implies_true, and_true]
    refine ⟨.string _, .object ?_, .array ?_⟩
    · simp [Value.Natural.null, Value.Natural.string, Value.Natural.number, Value.Natural.array]
    · simp [Value.Natural.string]
  have hread : decode shortForm.render = .ok tree := (decode_render hnatural (by decide)).trans rfl
  obtain ⟨hdepth, htext⟩ := decode_encode_decode.2 shortForm.render tree hread
  exact ⟨hread, hdepth, htext, decode_encode_decode.1 tree hdepth⟩

end Tree

end Sheet

end SheetGrammar
