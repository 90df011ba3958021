import SheetGrammar.Json.Reader
import SheetGrammar.Sheet.Basic

/-!
Sheets from JSON. A record is an object, or an array of its fields in the order of their declaration; a tagged value is
an object with a tag among its fields, or an array that starts with the tag. Fields that are not known are passed over.

Of several mistakes one is reported. In a tagged value the tag comes first; then the fields are taken as they are
written, a second field of the same name being a mistake; then the fields that are missing, in the order of their
declaration. The tag of the outermost value is looked at as soon as it is read, before the text behind it; all else
waits for the end of the value.
-/

namespace SheetGrammar

open Json (Value)

inductive DecodeError where
  /-- The text is no JSON, or nests too deep. -/
  | malformed
  | missingField (name : String)
  | duplicateField (name : String)
  | unknownVariant (found : String) (known : List String)
  | wrongType (found : Value) (expected : String)
  | outOfRange (found : Value) (expected : String)
  | wrongLength (found : Nat) (expected : String)

namespace DecodeError

/-- What is said about a text that is JSON and no sheet. -/
def text? : DecodeError → Option String
  | malformed => none
  | missingField name => some ("missing field `" ++ name ++ "`")
  | duplicateField name => some ("duplicate field `" ++ name ++ "`")
  | unknownVariant found known =>
    some ("unknown variant `" ++ found ++ "`, expected one of " ++
      String.intercalate ", " (known.map fun name => "`" ++ name ++ "`"))
  | wrongType found expected => some ("invalid type: " ++ found.describe ++ ", expected " ++ expected)
  | outOfRange found expected => some ("invalid value: " ++ found.describe ++ ", expected " ++ expected)
  | wrongLength found expected => some ("invalid length " ++ toString found ++ ", expected " ++ expected)

end DecodeError

namespace Decode

abbrev Decoded := Except DecodeError

/-- Where a value is taken from: straight from the text, or from inside a tagged value, which is kept until its tag is
known. Inside, a tag may also be given by its number. -/
inductive Layer where
  | outer
  | inner
deriving DecidableEq, Repr

def text : Value → Decoded String
  | .string s => .ok s
  | v => .error (.wrongType v "a string")

def word : Value → Decoded UInt64
  | .number (.natural n) => .ok n
  | .number (.negative n) => .error (.outOfRange (.number (.negative n)) "usize")
  | v => .error (.wrongType v "usize")

def list {α : Type} (item : Value → Decoded α) : Value → Decoded (List α)
  | .array items => items.mapM item
  | v => .error (.wrongType v "a sequence")

/-! ## Records -/

/-- Fills the slot of a field, which may be filled once. -/
def fill {α : Type} (name : String) (slot : Option α) (value : Decoded α) : Decoded (Option α) :=
  match slot with
  | some _ => .error (.duplicateField name)
  | none => value.map some

def required {α : Type} (name : String) : Option α → Decoded α
  | some a => .ok a
  | none => .error (.missingField name)

/-- The next item of a record that is an array; `index` items came before it. -/
def next (index : Nat) (record : String) : List Value → Decoded (Value × List Value)
  | v :: rest => .ok (v, rest)
  | [] => .error (.wrongLength index record)

/-- Nothing may follow the last of `count` items. -/
def atEnd (layer : Layer) (count : Nat) : List Value → Decoded Unit
  | [] => .ok ()
  | extra =>
    match layer with
    | .outer => .error .malformed
    | .inner =>
      .error (.wrongLength (count + extra.length)
        (if count = 1 then "1 element in sequence" else toString count ++ " elements in sequence"))

def record {α : Type} (name : String) (ofFields : List (String × Value) → Decoded α)
    (ofItems : List Value → Decoded α) : Value → Decoded α
  | .object fields => ofFields fields
  | .array items => ofItems items
  | v => .error (.wrongType v ("struct " ++ name))

/-- The texts of the named fields of an object, in the order of the names. -/
def textFields (names : List String) (fields : List (String × Value)) : Decoded (List String) := do
  let found ← fields.foldlM (fun (found : List (String × String)) (key, v) =>
    if key ∈ names then
      if (found.lookup key).isSome then throw (.duplicateField key)
      else do return (key, ← text v) :: found
    else pure found) []
  names.mapM fun name => required name (found.lookup name)

/-- The texts of an array of so many items. -/
def textItems (record : String) (count : Nat) (items : List Value) : Decoded (List String) := do
  let texts ← (items.take count).mapM text
  if texts.length < count then throw (.wrongLength texts.length record)
  atEnd .inner count (items.drop count)
  return texts

/-! ## Tags -/

/-- The variant that a tag names. -/
def readTag {κ : Type} (layer : Layer) (variants : List (String × κ)) (tag : Value) : Decoded κ :=
  match tag with
  | .string s =>
    match variants.lookup s with
    | some variant => .ok variant
    | none => .error (.unknownVariant s (variants.map (·.1)))
  | .number (.natural n) =>
    match layer, variants[n.toNat]? with
    | .outer, _ => .error (.wrongType tag "variant identifier")
    | .inner, some (_, variant) => .ok variant
    | .inner, none => .error (.outOfRange tag ("variant index 0 <= i < " ++ toString variants.length))
  | _ => .error (.wrongType tag "variant identifier")

/-- The variant that the fields of an object name, if they do. `found` is what the fields before them named. -/
def findTag {κ : Type} (layer : Layer) (name : String) (variants : List (String × κ)) :
    Option κ → List (String × Value) → Decoded (Option κ)
  | found, [] => .ok found
  | found, (key, v) :: rest =>
    if key = name then
      match found with
      | some _ => .error (.duplicateField name)
      | none =>
        match readTag layer variants v with
        | .ok variant => findTag layer name variants (some variant) rest
        | .error e => .error e
    else findTag layer name variants found rest

def tagOfFields {κ : Type} (layer : Layer) (name : String) (variants : List (String × κ))
    (fields : List (String × Value)) : Decoded κ :=
  match findTag layer name variants none fields with
  | .ok (some variant) => .ok variant
  | .ok none => .error (.missingField name)
  | .error e => .error e

/-- The mistake in the tag of a value whose text breaks off, if that much can be seen. -/
def tagMistake? {κ : Type} (name : String) (variants : List (String × κ)) : Json.Fragment → Option DecodeError
  | .nothing => none
  | .items (tag :: _) _ =>
    match readTag .outer variants tag with
    | .ok _ => none
    | .error e => some e
  | .items [] begun => begun.map fun v => .wrongType v "variant identifier"
  | .fields done next =>
    match findTag .outer name variants none done, next with
    | .error e, _ => some e
    | .ok _, none => none
    | .ok found, some (key, begun) =>
      if key = name then
        match found with
        | some _ => some (.duplicateField name)
        | none => begun.map fun v => .wrongType v "variant identifier"
      else none

def depthLimit : Nat := 127

def tagged {κ α : Type} (name : String) (variants : List (String × κ)) (ofValue : Value → Decoded α) (text : String) :
    Decoded α :=
  match Json.read depthLimit text with
  | .complete v trailing =>
    match ofValue v with
    | .error e => .error e
    | .ok a => if trailing then .error .malformed else .ok a
  | .broken state =>
    match tagMistake? name variants state.fragment with
    | some e => .error e
    | none => .error .malformed

/-- A tagged value inside a record that is read straight from the text. It is kept until its end, so it may nest only to
the limit; where it nests deeper, its tag counts if it has been read. -/
def taggedWithin {κ α : Type} (limit : Nat) (name : String) (variants : List (String × κ)) (ofValue : Value → Decoded α)
    (v : Value) : Decoded α :=
  if v.depth ≤ limit then ofValue v
  else
    match tagMistake? name variants (v.fragment limit) with
    | some e => .error e
    | none => .error .malformed

end Decode

open Decode

/-! ## Cells -/

namespace Position

def ofFields (fields : List (String × Value)) : Decoded Position := do
  let (sheet, row, col) ← fields.foldlM
    (fun ((sheet, row, col) : Option String × Option UInt64 × Option UInt64) (key, v) =>
      match key with
      | "sheet" => do return (← fill "sheet" sheet (text v), row, col)
      | "row" => do return (sheet, ← fill "row" row (word v), col)
      | "col" => do return (sheet, row, ← fill "col" col (word v))
      | _ => pure (sheet, row, col))
    (none, none, none)
  return ⟨← required "sheet" sheet, ← required "row" row, ← required "col" col⟩

def ofItems (layer : Layer) (items : List Value) : Decoded Position := do
  let name := "struct CellPos with 3 elements"
  let (sheet, rest) ← next 0 name items
  let sheet ← text sheet
  let (row, rest) ← next 1 name rest
  let row ← word row
  let (col, rest) ← next 2 name rest
  let col ← word col
  atEnd layer 3 rest
  return ⟨sheet, row, col⟩

def ofValue (layer : Layer) : Value → Decoded Position := record "CellPos" ofFields (ofItems layer)

end Position

namespace Cell

def ofFields (layer : Layer) (fields : List (String × Value)) : Decoded Cell := do
  let (content, pos) ← fields.foldlM
    (fun ((content, pos) : Option String × Option Position) (key, v) =>
      match key with
      | "text" => do return (← fill "text" content (Decode.text v), pos)
      | "pos" => do return (content, ← fill "pos" pos (Position.ofValue layer v))
      | _ => pure (content, pos))
    (none, none)
  return ⟨← required "text" content, ← required "pos" pos⟩

def ofItems (layer : Layer) (items : List Value) : Decoded Cell := do
  let name := "struct Cell with 2 elements"
  let (content, rest) ← next 0 name items
  let content ← Decode.text content
  let (pos, rest) ← next 1 name rest
  let pos ← Position.ofValue layer pos
  atEnd layer 2 rest
  return ⟨content, pos⟩

def ofValue (layer : Layer) : Value → Decoded Cell := record "Cell" (ofFields layer) (ofItems layer)

end Cell

namespace Sheet

/-! ## Headers and operators -/

namespace Header

inductive Variant where
  | tape
  | unique
  | embed
  | rename
  | choice
  | comment

def variants : List (String × Variant) :=
  [("tape", .tape), ("unique", .unique), ("embed", .embed), ("rename", .rename), ("choice", .choice),
    ("comment", .comment)]

mutual

def ofValue (layer : Layer) : Value → Decoded Header
  | .object fields =>
    match tagOfFields layer "kind" variants fields with
    | .error e => .error e
    | .ok .tape => (textFields ["name"] fields).map fun texts => .tape (texts.getD 0 "")
    | .ok .unique =>
      match innerField none fields with
      | .ok (some inner) => .ok (.unique inner)
      | .ok none => .error (.missingField "inner")
      | .error e => .error e
    | .ok .embed => .ok .embed
    | .ok .rename =>
      (textFields ["from", "to"] fields).map fun texts => .rename (texts.getD 0 "") (texts.getD 1 "")
    | .ok .choice => (textFields ["tape"] fields).map fun texts => .choice (texts.getD 0 "")
    | .ok .comment => .ok .comment
  | .array [] => .error (.missingField "kind")
  | .array (tag :: items) =>
    match readTag layer variants tag with
    | .error e => .error e
    | .ok .tape =>
      (textItems "struct variant Header::Tape with 1 element" 1 items).map fun texts => .tape (texts.getD 0 "")
    | .ok .unique =>
      match items with
      | [] => .error (.wrongLength 0 "struct variant Header::Unique with 1 element")
      | inner :: rest =>
        match ofValue .inner inner, atEnd .inner 1 rest with
        | .ok inner, .ok () => .ok (.unique inner)
        | .error e, _ => .error e
        | _, .error e => .error e
    | .ok .embed => (atEnd .inner 0 items).map fun _ => .embed
    | .ok .rename =>
      (textItems "struct variant Header::Rename with 2 elements" 2 items).map fun texts =>
        .rename (texts.getD 0 "") (texts.getD 1 "")
    | .ok .choice =>
      (textItems "struct variant Header::Choice with 1 element" 1 items).map fun texts => .choice (texts.getD 0 "")
    | .ok .comment => (atEnd .inner 0 items).map fun _ => .comment
  | v => .error (.wrongType v "internally tagged enum Header")

def innerField : Option Header → List (String × Value) → Decoded (Option Header)
  | found, [] => .ok found
  | found, (key, v) :: rest =>
    if key = "inner" then
      match found with
      | some _ => .error (.duplicateField "inner")
      | none =>
        match ofValue .inner v with
        | .ok inner => innerField (some inner) rest
        | .error e => .error e
    else innerField found rest

end

/-- The header in a column. Around it are the column, the list of columns and the grid. -/
def ofColumn : Layer → Value → Decoded Header
  | .outer => taggedWithin (depthLimit - 3) "kind" variants (ofValue .outer)
  | .inner => ofValue .inner

def decode : String → Decoded Header := tagged "kind" variants (ofValue .outer)

end Header

namespace Operator

inductive Variant where
  | table
  | test
  | testNot
  | or
  | assign

def variants : List (String × Variant) :=
  [("table", .table), ("test", .test), ("testnot", .testNot), ("or", .or), ("assign", .assign)]

/-- An operator of a variant, with the decoder for its name. -/
def ofVariant (name : Decoded String) (bare : Decoded Unit) : Variant → Decoded Operator
  | .table => bare.map fun _ => .table
  | .test => bare.map fun _ => .test
  | .testNot => bare.map fun _ => .testNot
  | .or => bare.map fun _ => .or
  | .assign => name.map .assign

def ofValue (layer : Layer) : Value → Decoded Operator
  | .object fields =>
    match tagOfFields layer "kind" variants fields with
    | .error e => .error e
    | .ok variant => ofVariant ((textFields ["name"] fields).map (·.getD 0 "")) (.ok ()) variant
  | .array [] => .error (.missingField "kind")
  | .array (tag :: items) =>
    match readTag layer variants tag with
    | .error e => .error e
    | .ok variant =>
      ofVariant ((textItems "struct variant Operator::Assign with 1 element" 1 items).map (·.getD 0 ""))
        (atEnd .inner 0 items) variant
  | v => .error (.wrongType v "internally tagged enum Operator")

def decode : String → Decoded Operator := tagged "kind" variants (ofValue .outer)

end Operator

/-! ## Grids -/

namespace Column

def ofFields (layer : Layer) (fields : List (String × Value)) : Decoded Column := do
  let (header, pos) ← fields.foldlM
    (fun ((header, pos) : Option Header × Option Position) (key, v) =>
      match key with
      | "header" => do return (← fill "header" header (Header.ofColumn layer v), pos)
      | "pos" => do return (header, ← fill "pos" pos (Position.ofValue layer v))
      | _ => pure (header, pos))
    (none, none)
  return ⟨← required "header" header, ← required "pos" pos⟩

def ofItems (layer : Layer) (items : List Value) : Decoded Column := do
  let name := "struct TstHeader with 2 elements"
  let (header, rest) ← next 0 name items
  let header ← Header.ofColumn layer header
  let (pos, rest) ← next 1 name rest
  let pos ← Position.ofValue layer pos
  atEnd layer 2 rest
  return ⟨header, pos⟩

def ofValue (layer : Layer) : Value → Decoded Column := record "TstHeader" (ofFields layer) (ofItems layer)

end Column

namespace Row

def ofFields (layer : Layer) (fields : List (String × Value)) : Decoded Row := do
  let (pos, cells) ← fields.foldlM
    (fun ((pos, cells) : Option Position × Option (List Cell)) (key, v) =>
      match key with
      | "pos" => do return (← fill "pos" pos (Position.ofValue layer v), cells)
      | "cells" => do return (pos, ← fill "cells" cells (list (Cell.ofValue layer) v))
      | _ => pure (pos, cells))
    (none, none)
  return ⟨← required "pos" pos, cells.getD []⟩

def ofItems (layer : Layer) (items : List Value) : Decoded Row := do
  let (pos, rest) ← next 0 "struct TstRow with 2 elements" items
  let pos ← Position.ofValue layer pos
  match rest with
  | [] => return ⟨pos, []⟩
  | cells :: rest =>
    let cells ← list (Cell.ofValue layer) cells
    atEnd layer 2 rest
    return ⟨pos, cells⟩

def ofValue (layer : Layer) : Value → Decoded Row := record "TstRow" (ofFields layer) (ofItems layer)

end Row

namespace Grid

def ofFields (layer : Layer) (fields : List (String × Value)) : Decoded Grid := do
  let (cell, columns, rows) ← fields.foldlM
    (fun ((cell, columns, rows) : Option Cell × Option (List Column) × Option (List Row)) (key, v) =>
      match key with
      | "cell" => do return (← fill "cell" cell (Cell.ofValue layer v), columns, rows)
      | "headers" => do return (cell, ← fill "headers" columns (list (Column.ofValue layer) v), rows)
      | "rows" => do return (cell, columns, ← fill "rows" rows (list (Row.ofValue layer) v))
      | _ => pure (cell, columns, rows))
    (none, none, none)
  return ⟨← required "cell" cell, ← required "headers" columns, rows.getD []⟩

def ofItems (layer : Layer) (items : List Value) : Decoded Grid := do
  let name := "struct TstGrid with 3 elements"
  let (cell, rest) ← next 0 name items
  let cell ← Cell.ofValue layer cell
  let (columns, rest) ← next 1 name rest
  let columns ← list (Column.ofValue layer) columns
  match rest with
  | [] => return ⟨cell, columns, []⟩
  | rows :: rest =>
    let rows ← list (Row.ofValue layer) rows
    atEnd layer 3 rest
    return ⟨cell, columns, rows⟩

def ofValue (layer : Layer) : Value → Decoded Grid := record "TstGrid" (ofFields layer) (ofItems layer)

/-- A grid on its own from its text. Fields that are not known are passed over however deep they nest, which is less
deep than the text is long. -/
def decode (text : String) : Decoded Grid :=
  match Json.parse? text.length text with
  | some v => ofValue .outer v
  | none => .error .malformed

end Grid

/-! ## Trees -/

namespace Tree

inductive Variant where
  | op
  | grid
  | collection
  | empty

def variants : List (String × Variant) :=
  [("op", .op), ("grid", .grid), ("collection", .collection), ("empty", .empty)]

structure OpSlots where
  cell : Option Cell := none
  operator : Option Operator := none
  sibling : Option Tree := none
  child : Option Tree := none

def OpSlots.toTree (slots : OpSlots) : Decoded Tree := do
  return .op (← required "cell" slots.cell) (← required "op" slots.operator) (slots.sibling.getD .empty)
    (slots.child.getD .empty)

structure CollectionSlots where
  cell : Option Cell := none
  name : Option String := none
  children : Option (List Tree) := none

def CollectionSlots.toTree (slots : CollectionSlots) : Decoded Tree := do
  return .collection (← required "cell" slots.cell) (← required "name" slots.name) (slots.children.getD [])

mutual

def ofValue (layer : Layer) : Value → Decoded Tree
  | .object fields =>
    match tagOfFields layer "type" variants fields with
    | .error e => .error e
    | .ok .op => do (← opFields {} fields).toTree
    | .ok .grid => (Grid.ofFields .inner fields).map .grid
    | .ok .collection => do (← collectionFields {} fields).toTree
    | .ok .empty => .ok .empty
  | .array [] => .error (.missingField "type")
  | .array (tag :: items) =>
    match readTag layer variants tag with
    | .error e => .error e
    | .ok .op => opItems items
    | .ok .grid => (Grid.ofItems .inner items).map .grid
    | .ok .collection => collectionItems items
    | .ok .empty => (atEnd .inner 0 items).map fun _ => .empty
  | v => .error (.wrongType v "internally tagged enum TstNode")

def ofValues : List Value → Decoded (List Tree)
  | [] => .ok []
  | v :: rest => do return (← ofValue .inner v) :: (← ofValues rest)

def childrenOfValue : Value → Decoded (List Tree)
  | .array items => ofValues items
  | v => .error (.wrongType v "a sequence")

def opFields (slots : OpSlots) : List (String × Value) → Decoded OpSlots
  | [] => .ok slots
  | (key, v) :: rest =>
    match key with
    | "cell" => do opFields { slots with cell := ← fill "cell" slots.cell (Cell.ofValue .inner v) } rest
    | "op" => do opFields { slots with operator := ← fill "op" slots.operator (Operator.ofValue .inner v) } rest
    | "sibling" => do opFields { slots with sibling := ← fill "sibling" slots.sibling (ofValue .inner v) } rest
    | "child" => do opFields { slots with child := ← fill "child" slots.child (ofValue .inner v) } rest
    | _ => opFields slots rest

def collectionFields (slots : CollectionSlots) : List (String × Value) → Decoded CollectionSlots
  | [] => .ok slots
  | (key, v) :: rest =>
    match key with
    | "cell" => do collectionFields { slots with cell := ← fill "cell" slots.cell (Cell.ofValue .inner v) } rest
    | "name" => do collectionFields { slots with name := ← fill "name" slots.name (text v) } rest
    | "children" => do
      collectionFields { slots with children := ← fill "children" slots.children (childrenOfValue v) } rest
    | _ => collectionFields slots rest

def opItems : List Value → Decoded Tree
  | [] => .error (.wrongLength 0 "struct TstOp with 4 elements")
  | [cell] => do
    let _ ← Cell.ofValue .inner cell
    throw (.wrongLength 1 "struct TstOp with 4 elements")
  | [cell, operator] => do
    return .op (← Cell.ofValue .inner cell) (← Operator.ofValue .inner operator) .empty .empty
  | [cell, operator, sibling] => do
    return .op (← Cell.ofValue .inner cell) (← Operator.ofValue .inner operator) (← ofValue .inner sibling) .empty
  | cell :: operator :: sibling :: child :: rest => do
    let cell ← Cell.ofValue .inner cell
    let operator ← Operator.ofValue .inner operator
    let sibling ← ofValue .inner sibling
    let child ← ofValue .inner child
    atEnd .inner 4 rest
    return .op cell operator sibling child

def collectionItems : List Value → Decoded Tree
  | [] => .error (.wrongLength 0 "struct TstCollection with 3 elements")
  | [cell] => do
    let _ ← Cell.ofValue .inner cell
    throw (.wrongLength 1 "struct TstCollection with 3 elements")
  | [cell, name] => do return .collection (← Cell.ofValue .inner cell) (← text name) []
  | cell :: name :: children :: rest => do
    let cell ← Cell.ofValue .inner cell
    let name ← text name
    let children ← childrenOfValue children
    atEnd .inner 3 rest
    return .collection cell name children

end

def decode : String → Decoded Tree := tagged "type" variants (ofValue .outer)

end Tree

end Sheet

end SheetGrammar
