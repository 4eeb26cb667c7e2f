import CommandShell.Number.Binary64
import CommandShell.Text

/-!
# The shortest decimal

The text of a floating-point number has the fewest digits that still read back as that number,
and of those the nearest to it.
-/

namespace CommandShell.Binary64

/-- The decimal `digits · 10 ^ exponent`. -/
structure Decimal where
  digits : Nat
  exponent : Int
deriving DecidableEq, Repr

/-- The reals that round to a number, and the number itself, over one denominator. -/
structure Neighbourhood where
  low : Nat
  value : Nat
  high : Nat
  denominator : Nat
  /-- whether the two ends round to the number -/
  closed : Bool

/-- The neighbourhood of `mantissa · 2 ^ exponent`: half way to the numbers next to it. Below a
power of two the gap is only half as wide. -/
def neighbourhood (mantissa : Nat) (exponent : Int) : Neighbourhood :=
  let below := if mantissa = Nat.pow 2 (precision - 1) && minExponent < exponent then 1 else 2
  let (unit, denominator) : Nat × Nat :=
    if 2 ≤ exponent then (Nat.pow 2 (exponent - 2).toNat, 1)
    else (1, Nat.pow 2 (2 - exponent).toNat)
  { low := (4 * mantissa - below) * unit
    value := 4 * mantissa * unit
    high := (4 * mantissa + 2) * unit
    denominator
    closed := mantissa % 2 = 0 }

def Neighbourhood.contains (around : Neighbourhood) (digits : Nat) (exponent : Int) : Bool :=
  let (num, den) : Nat × Nat :=
    if 0 ≤ exponent then (digits * Nat.pow 10 exponent.toNat, 1)
    else (digits, Nat.pow 10 (-exponent).toNat)
  let point := num * around.denominator
  if around.closed then around.low * den ≤ point && point ≤ around.high * den
  else around.low * den < point && point < around.high * den

/-- The whole part of a neighbourhood's value over `10 ^ exponent`, and whether the value lies
nearer to the next whole number. -/
def Neighbourhood.onGrid (around : Neighbourhood) (exponent : Int) : Nat × Bool :=
  let (num, den) : Nat × Nat :=
    if 0 ≤ exponent then (around.value, around.denominator * Nat.pow 10 exponent.toNat)
    else (around.value * Nat.pow 10 (-exponent).toNat, around.denominator)
  (num / den, den < 2 * (num % den) || (2 * (num % den) = den && num / den % 2 = 1))

/-- How many places a fraction below one has to be moved to reach one. -/
def leadingPlaces (num den : Nat) : Nat → Nat
  | 0 => 0
  | fuel + 1 => if den ≤ num then 0 else leadingPlaces (10 * num) den fuel + 1

/-- The number of digits of a value before the point; zero or negative below one. -/
def integerPlaces (around : Neighbourhood) : Int :=
  let whole := around.value / around.denominator
  if whole = 0 then 1 - (leadingPlaces around.value around.denominator 400 : Int)
  else (Nat.toDigits 10 whole).length

/-- The decimal of exactly `count` digits that reads back, if there is one; of two the nearer. -/
def decimalWith? (around : Neighbourhood) (places : Int) (count : Nat) : Option Decimal :=
  let exponent := places - count
  let (below, nearerAbove) := around.onGrid exponent
  let candidates := if nearerAbove then [below + 1, below] else [below, below + 1]
  (candidates.find? fun digits => around.contains digits exponent).map (⟨·, exponent⟩)

/-- Moves final zeros into the exponent. -/
def Decimal.reduce (decimal : Decimal) : Nat → Decimal
  | 0 => decimal
  | fuel + 1 =>
    if decimal.digits % 10 = 0 && decimal.digits ≠ 0 then
      Decimal.reduce ⟨decimal.digits / 10, decimal.exponent + 1⟩ fuel
    else decimal

def shortest (mantissa : Nat) (exponent : Int) : Decimal :=
  let around := neighbourhood mantissa exponent
  let places := integerPlaces around
  let tried := (List.range 17).filterMap fun count => decimalWith? around places (count + 1)
  (tried.head?.getD ⟨mantissa, exponent⟩).reduce 20

/-- The exponent of a number in scientific notation: a sign and at least two digits. -/
def exponentText (exponent : Int) : Text :=
  let digits := Text.ofNat exponent.natAbs
  (if exponent < 0 then '-' else '+') :: (if digits.length < 2 then '0' :: digits else digits)

/-- Writes a decimal: positionally if the point lies within the digits or near them, with at least
one digit after the point, and scientifically otherwise. -/
def Decimal.text (decimal : Decimal) : Text :=
  let digits := Text.ofNat decimal.digits
  let point : Int := digits.length + decimal.exponent
  if -4 < point ∧ point ≤ 16 then
    if point ≤ 0 then '0' :: '.' :: List.replicate (-point).toNat '0' ++ digits
    else
      let whole := point.toNat
      if digits.length ≤ whole then
        digits ++ List.replicate (whole - digits.length) '0' ++ ['.', '0']
      else digits.take whole ++ '.' :: digits.drop whole
  else
    let fraction := digits.drop 1
    digits.take 1 ++ (if fraction.isEmpty then [] else '.' :: fraction)
      ++ 'e' :: exponentText (point - 1)

def text : Binary64 → Text
  | .finite negative mantissa exponent =>
    (if negative then ['-'] else []) ++
      if mantissa = 0 then "0.0".toList else (shortest mantissa exponent).text
  | .infinite negative => (if negative then "-inf" else "inf").toList
  | .nan => "nan".toList

end CommandShell.Binary64
