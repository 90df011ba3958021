/-!
The decimal text of a double: the fewest digits that no other double is nearer to, and of the texts with that many the
one nearest to the double. Everything is computed on exact fractions.

The doubles near x = m · 2^q are its neighbours; a real number is read as x when it lies between the two midpoints, and
at a midpoint itself when m is even. Below a power of two the neighbour is only half as far away.
-/

namespace SheetGrammar.Json

structure Fraction where
  num : Nat
  den : Nat

namespace Fraction

/-- `n · base ^ e`. -/
def scaled (n base : Nat) (e : Int) : Fraction :=
  if e < 0 then ⟨n, Nat.pow base e.natAbs⟩ else ⟨n * Nat.pow base e.natAbs, 1⟩

def lt (a b : Fraction) : Bool := a.num * b.den < b.num * a.den

def le (a b : Fraction) : Bool := a.num * b.den ≤ b.num * a.den

def add (a b : Fraction) : Fraction := ⟨a.num * b.den + b.num * a.den, a.den * b.den⟩

def quotient (a b : Fraction) : Nat := (a.num * b.den) / (a.den * b.num)

end Fraction

/-- A positive double with the interval of the numbers that are read as it. -/
structure Neighbourhood where
  value : Fraction
  below : Fraction
  above : Fraction
  closed : Bool

/-- The neighbourhood of the finite positive double with these bits. -/
def Neighbourhood.ofBits (bits : UInt64) : Neighbourhood :=
  let biased := ((bits >>> 52) &&& 0x7FF).toNat
  let fraction := (bits &&& 0xFFFFFFFFFFFFF).toNat
  let m := if biased = 0 then fraction else Nat.pow 2 52 + fraction
  let q : Int := (if biased = 0 then 1 else biased : Nat) - 1075
  let nearBelow := fraction = 0 && biased > 1
  { value := .scaled m 2 q
    below := .scaled (4 * m - if nearBelow then 1 else 2) 2 (q - 2)
    above := .scaled (4 * m + 2) 2 (q - 2)
    closed := m % 2 = 0 }

def Neighbourhood.contains (x : Neighbourhood) (candidate : Fraction) : Bool :=
  if x.closed then x.below.le candidate && candidate.le x.above else x.below.lt candidate && candidate.lt x.above

/-- Of the two multiples of `10 ^ e` around the value the one to write, if either is read as it. The nearer wins, and
the even one when both are as near. -/
def Neighbourhood.onGrid (x : Neighbourhood) (e : Int) : Option Nat :=
  let unit := Fraction.scaled 1 10 e
  let low := x.value.quotient unit
  let at_ (n : Nat) := Fraction.scaled n 10 e
  let twice := x.value.add x.value
  let middle := (at_ low).add (at_ (low + 1))
  let nearest :=
    if twice.lt middle then low else if middle.lt twice then low + 1 else if low % 2 = 0 then low else low + 1
  let other := if nearest = low then low + 1 else low
  if x.contains (at_ nearest) then some nearest else if x.contains (at_ other) then some other else none

/-- The least `k` with value below `10 ^ k`, for the doubles there are. -/
def Neighbourhood.magnitude (x : Neighbourhood) : Int :=
  match (List.range 640).find? fun (i : Nat) => x.value.lt (.scaled 1 10 ((i : Int) - 325)) with
  | some i => (i : Int) - 325
  | none => 315

/-- Digits and exponent of the shortest text of a positive double. -/
def Neighbourhood.shortest (x : Neighbourhood) : Nat × Int :=
  let k := x.magnitude
  let grids := (List.range 17).filterMap fun (i : Nat) =>
    let e := k - ((i : Int) + 1)
    (x.onGrid e).map fun digits => (digits, e)
  grids.headD (0, 0)

/-- Lays digits out: positionally while at most sixteen places stand before the point and four zeros after it, with a
signed exponent otherwise. -/
def layout (digits : List Char) (exponent : Int) : String :=
  let length : Int := digits.length
  let point := length + exponent
  if 0 ≤ exponent ∧ point ≤ 16 then String.ofList (digits ++ List.replicate exponent.toNat '0' ++ ['.', '0'])
  else if 0 < point ∧ point ≤ 16 then
    String.ofList (digits.take point.toNat ++ '.' :: digits.drop point.toNat)
  else if -5 < point ∧ point ≤ 0 then String.ofList ('0' :: '.' :: (List.replicate (-point).toNat '0' ++ digits))
  else
    let tail := digits.drop 1
    let sign := if 0 < point then "+" else ""
    String.ofList (digits.take 1 ++ (if tail.isEmpty then [] else '.' :: tail)) ++ "e" ++ sign ++ toString (point - 1)

/-- The digits without the zeros at their end, and how many those were. -/
def stripZeros (digits : List Char) : List Char × Nat :=
  let kept := (digits.reverse.dropWhile (· == '0')).reverse
  (kept, digits.length - kept.length)

def doubleText (x : Float) : String :=
  let bits := x.toBits
  let sign := if bits >>> 63 == 1 then "-" else ""
  let magnitude := bits &&& 0x7FFFFFFFFFFFFFFF
  if magnitude == 0 then sign ++ "0.0"
  else
    let (number, exponent) := (Neighbourhood.ofBits magnitude).shortest
    let (digits, zeros) := stripZeros (toString number).toList
    sign ++ layout digits (exponent + zeros)

end SheetGrammar.Json
