import SheetGrammar.Toml.Quoted

/-!
Numbers, dates and times of TOML, as far as telling which texts are some.
-/

namespace SheetGrammar.Toml

open Reader

def digitsValue (digits : List Char) : Nat := digits.foldl (fun n d => 10 * n + (d.toNat - '0'.toNat)) 0

/-! ## Numbers -/

/-- Digits of a class; a low line may stand between two. -/
def groupedDigits (allowed : Char → Bool) : Reader (List Char) := do
  let first ← satisfy allowed
  let rest ← many (satisfy allowed <|> (do char '_'; satisfy allowed))
  return first :: rest

def sign : Reader (Option Char) := maybe (satisfy fun c => c == '+' || c == '-')

def decimalDigits : Reader (List Char) :=
  (do
    let first ← satisfy fun c => '1' ≤ c && c ≤ '9'
    let rest ← many (satisfy Char.isDigit <|> (do char '_'; satisfy Char.isDigit))
    return first :: rest) <|>
  (do return [← satisfy Char.isDigit])

/-- A whole number in one of the bases without a sign; it has to fit in 63 bits. -/
def based (mark : String) (base : Nat) (allowed : Char → Bool) : Reader Unit := do
  exactly mark
  let digits ← groupedDigits allowed
  if digits.foldl (fun n c => base * n + hexDigitValue c) 0 < Nat.pow 2 63 then return () else failure

def integer : Reader Unit :=
  based "0x" 16 isHexDigit <|> based "0o" 8 (fun c => '0' ≤ c && c ≤ '7') <|>
    based "0b" 2 (fun c => c == '0' || c == '1') <|> do
      let sign ← sign
      let magnitude := digitsValue (← decimalDigits)
      if magnitude < Nat.pow 2 63 || (sign == some '-' && magnitude == Nat.pow 2 63) then return () else failure

/-- From here on numbers round above the largest double: halfway between it and `2 ^ 1024`. -/
def overflowBound : Nat := Nat.pow 2 1024 - Nat.pow 2 970

/-- Whether `digits * 10 ^ exponent` rounds to a double. The bound has 309 digits, so most numbers are judged by the
number of their digits. -/
def isFinite (digits : List Char) (exponent : Int) : Bool :=
  let significand := digitsValue digits
  let magnitude := exponent + (toString significand).length
  if significand = 0 || magnitude < 300 then true
  else if 320 < magnitude then false
  else if 0 ≤ exponent then significand * Nat.pow 10 exponent.toNat < overflowBound
  else significand < overflowBound * Nat.pow 10 (-exponent).toNat

def exponent : Reader Int := do
  discard (satisfy fun c => c == 'e' || c == 'E')
  let sign ← sign
  let magnitude : Int := digitsValue (← groupedDigits Char.isDigit)
  return if sign == some '-' then -magnitude else magnitude

/-- A number with a fraction or an exponent. One above all doubles is refused; one below all of them is not. -/
def float : Reader Unit := do
  let sign ← sign
  let whole ← decimalDigits
  let fraction ← maybe (do char '.'; groupedDigits Char.isDigit)
  let power ← maybe exponent
  if fraction.isNone && power.isNone then failure
  let fraction := fraction.getD []
  if sign == some '-' || isFinite (whole ++ fraction) (power.getD 0 - fraction.length) then return () else failure

def specialFloat : Reader Unit := do
  discard sign
  exactly "inf" <|> exactly "nan"

/-! ## Dates and times -/

def numberIn (digits low high : Nat) : Reader Nat := do
  let n := digitsValue (← times Char.isDigit digits)
  if low ≤ n && n ≤ high then return n else failure

def isLeapYear (year : Nat) : Bool := year % 4 == 0 && (year % 100 != 0 || year % 400 == 0)

def daysIn (year month : Nat) : Nat :=
  if month = 2 then (if isLeapYear year then 29 else 28)
  else if month ∈ [4, 6, 9, 11] then 30
  else 31

def date : Reader Unit := do
  let year ← numberIn 4 0 9999
  char '-'
  let month ← numberIn 2 1 12
  char '-'
  discard (numberIn 2 1 (daysIn year month))

def time : Reader Unit := do
  discard (numberIn 2 0 23)
  char ':'
  discard (numberIn 2 0 59)
  char ':'
  discard (numberIn 2 0 60)
  discard (maybe (do char '.'; run1 Char.isDigit))

def offset : Reader Unit :=
  discard (satisfy fun c => c == 'Z' || c == 'z') <|> do
    discard (satisfy fun c => c == '+' || c == '-')
    discard (numberIn 2 0 23)
    char ':'
    discard (numberIn 2 0 59)

def moment : Reader Unit :=
  (do
    date
    discard (maybe (do
      discard (satisfy fun c => c == 'T' || c == 't' || c == ' ')
      time
      discard (maybe offset)))) <|>
  time

end SheetGrammar.Toml
