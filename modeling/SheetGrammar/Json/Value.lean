import SheetGrammar.Json.Shortest
import SheetGrammar.Text.PrintTable
import SheetGrammar.Text.Ranges

/-!
JSON values as they are written: the fields of an object keep their order and their repetitions. A whole number that
fits in 64 bits is exact; every other number is kept as its numeral, which stands for a double.
-/

namespace SheetGrammar.Json

/-- A number as written: its digits before and after the point, and its exponent. -/
structure Numeral where
  negative : Bool
  whole : List Char
  fraction : List Char
  exponent : Int
deriving DecidableEq, Repr

inductive Number where
  | natural (n : UInt64)
  /-- The number `-n`. -/
  | negative (n : UInt64)
  | decimal (numeral : Numeral)
deriving DecidableEq, Repr

inductive Value where
  | null
  | bool (b : Bool)
  | number (n : Number)
  | string (s : String)
  | array (items : List Value)
  | object (fields : List (String × Value))
deriving Repr

instance : Inhabited Value := ⟨.null⟩

namespace Numeral

def digitsValue (digits : List Char) : Nat := digits.foldl (fun n d => 10 * n + (d.toNat - '0'.toNat)) 0

/-- Takes digits before the point into a significand of 64 bits. A digit that does not fit counts as a zero, and so do
those after it. -/
def takeWhole : Nat × Int → List Char → Nat × Int
  | acc, [] => acc
  | (significand, exponent), d :: rest =>
    let next := 10 * significand + (d.toNat - '0'.toNat)
    if next < Nat.pow 2 64 then takeWhole (next, exponent) rest else (significand, exponent + (d :: rest).length)

/-- Takes digits after the point into a significand of 64 bits, up to the first that does not fit. -/
def takeFraction : Nat × Int → List Char → Nat × Int
  | acc, [] => acc
  | (significand, exponent), d :: rest =>
    let next := 10 * significand + (d.toNat - '0'.toNat)
    if next < Nat.pow 2 64 then takeFraction (next, exponent - 1) rest else (significand, exponent)

def powerOfTen (n : Nat) : Float := Float.ofScientific 1 false n

/-- Divides by a power of ten, by at most `10 ^ 308` at a time. -/
def divide (x : Float) (n : Nat) : Float :=
  if n ≤ 308 then x / powerOfTen n
  else if x == 0.0 then x
  else divide (x / powerOfTen 308) (n - 308)
termination_by n

/-- The double that a numeral stands for: the significand scaled by one power of ten. There is none if that exceeds
the doubles. -/
def toFloat? (numeral : Numeral) : Option Float :=
  let (significand, scale) := takeFraction (takeWhole (0, 0) numeral.whole) numeral.fraction
  let exponent := scale + numeral.exponent
  let signed (x : Float) := if numeral.negative then -x else x
  let x := Float.ofNat significand
  if exponent < 0 then some (signed (divide x exponent.natAbs))
  else if significand = 0 then some (signed x)
  else if exponent ≤ 308 then
    let product := x * powerOfTen exponent.natAbs
    if product.isInf then none else some (signed product)
  else none

def render (numeral : Numeral) : List Char :=
  (if numeral.negative then ['-'] else []) ++ numeral.whole ++
    (if numeral.fraction.isEmpty then [] else '.' :: numeral.fraction) ++ 'e' :: (toString numeral.exponent).toList

end Numeral

namespace Number

/-- The number that a numeral is, if a double can hold it. Only a numeral without point and exponent is whole. -/
def ofNumeral? (numeral : Numeral) (isWhole : Bool) : Option Number :=
  let n := Numeral.digitsValue numeral.whole
  if isWhole && !numeral.negative && n < Nat.pow 2 64 then some (natural (UInt64.ofNat n))
  else if isWhole && numeral.negative && 0 < n && n ≤ Nat.pow 2 63 then some (negative (UInt64.ofNat n))
  else if numeral.toFloat?.isSome then some (decimal numeral)
  else none

def render : Number → List Char
  | natural n => (toString n.toNat).toList
  | negative n => '-' :: (toString n.toNat).toList
  | decimal numeral => numeral.render

end Number

/-! ## Values in messages -/

def hexDigits (n : Nat) : List Char := Nat.toDigits 16 n

/-- A character as it is quoted in a message. -/
def quoteChar (c : Char) : List Char :=
  if c = '"' then ['\\', '"']
  else if c = '\\' then ['\\', '\\']
  else if c = '\n' then ['\\', 'n']
  else if c = '\r' then ['\\', 'r']
  else if c = '\t' then ['\\', 't']
  else if c = '\x00' then ['\\', '0']
  else if Text.inRanges Text.shapelessRanges c || Text.inRanges Text.attachingRanges c then
    ['\\', 'u', '\x7b'] ++ hexDigits c.toNat ++ ['\x7d']
  else [c]

def quote (s : String) : String := String.ofList ('"' :: (s.toList.flatMap quoteChar ++ ['"']))

def Value.describe : Value → String
  | .null => "null"
  | .bool b => "boolean `" ++ (if b then "true" else "false") ++ "`"
  | .number (.natural n) => "integer `" ++ toString n.toNat ++ "`"
  | .number (.negative n) => "integer `-" ++ toString n.toNat ++ "`"
  | .number (.decimal numeral) => "floating point `" ++ doubleText (numeral.toFloat?.getD 0.0) ++ "`"
  | .string s => "string " ++ quote s
  | .array _ => "sequence"
  | .object _ => "map"

/-! ## Values as text -/

def escapeChar (c : Char) : List Char :=
  if c = '"' then ['\\', '"']
  else if c = '\\' then ['\\', '\\']
  else if c = '\n' then ['\\', 'n']
  else if c = '\r' then ['\\', 'r']
  else if c = '\t' then ['\\', 't']
  else if c = '\x08' then ['\\', 'b']
  else if c = '\x0c' then ['\\', 'f']
  else if c.toNat < 0x20 then
    ['\\', 'u', '0', '0', Nat.digitChar (c.toNat / 16), Nat.digitChar (c.toNat % 16)]
  else [c]

def writeString (s : String) : List Char := '"' :: (s.toList.flatMap escapeChar ++ ['"'])

mutual

/-- The text of a value, without blanks. -/
def Value.write : Value → List Char
  | .null => "null".toList
  | .bool true => "true".toList
  | .bool false => "false".toList
  | .number n => n.render
  | .string s => writeString s
  | .array items => '[' :: (Value.writeItems items ++ [']'])
  | .object fields => '\x7b' :: (Value.writeFields fields ++ ['\x7d'])

def Value.writeItems : List Value → List Char
  | [] => []
  | [v] => v.write
  | v :: rest => v.write ++ ',' :: Value.writeItems rest

def Value.writeFields : List (String × Value) → List Char
  | [] => []
  | [(key, v)] => writeString key ++ ':' :: v.write
  | (key, v) :: rest => writeString key ++ ':' :: (v.write ++ ',' :: Value.writeFields rest)

end

def Value.render (v : Value) : String := String.ofList v.write

mutual

def Value.depth : Value → Nat
  | .array items => 1 + Value.depthItems items
  | .object fields => 1 + Value.depthFields fields
  | _ => 0

def Value.depthItems : List Value → Nat
  | [] => 0
  | v :: rest => max v.depth (Value.depthItems rest)

def Value.depthFields : List (String × Value) → Nat
  | [] => 0
  | (_, v) :: rest => max v.depth (Value.depthFields rest)

end

end SheetGrammar.Json
