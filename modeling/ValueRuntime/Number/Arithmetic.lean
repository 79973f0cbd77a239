import ValueRuntime.Number.Basic

/-! # Arithmetic on binary64 numbers

    Each operation computes its exact result as a ratio of natural numbers of units and
    rounds it once to the nearest number, a tie going to the even code. A result beyond
    the largest finite number becomes infinity.
-/

namespace ValueRuntime.Number

/-! ## Rounding -/

/-- The natural number nearest to `num / den`, a tie going to the even one. -/
def roundDiv (num den : Nat) : Nat :=
  let quotient := num / den
  let twice := 2 * (num % den)
  if twice > den || (twice == den && quotient % 2 == 1) then quotient + 1 else quotient

/-- The code nearest to `num / den` units in a format with `p` fraction bits and no upper
    end. The quotient is scaled down until `p + 1` bits remain; rounding up to the next
    power of two carries into the exponent by itself. -/
def nearestCode (p num den : Nat) : Nat :=
  let quotient := num / den
  let shift := if quotient < Nat.pow 2 (p + 1) then 0 else quotient.log2 - p
  shift * Nat.pow 2 p + roundDiv num (den * Nat.pow 2 shift)

/-- The number nearest to `num / den` units, with the given sign. -/
def ofRatio (negative : Bool) (num den : Nat) : Number :=
  .signed negative ⟨min (nearestCode fractionBits num den) infinityCode, by
    have := Nat.min_le_right (nearestCode fractionBits num den) infinityCode
    omega⟩

/-- The number nearest to a signed count of units. The sign of an exact zero is given. -/
def ofUnits (zeroNegative : Bool) (units : Int) : Number :=
  if units = 0 then zero zeroNegative else ofRatio (units < 0) units.natAbs 1

/-- The number nearest to an integer. -/
def ofInt (i : Int) : Number := ofRatio (i < 0) (i.natAbs * unitsPerOne) 1

/-- The number nearest to a natural number. -/
def ofNat (n : Nat) : Number := ofInt n

/-! ## The four operations -/

/-- The sum. Infinities of opposite sign have none; an exact zero is negative only when
    both summands are. -/
def add (x y : Number) : Number :=
  if x.isNaN || y.isNaN then .nan
  else if x.isFinite && y.isFinite then
    ofUnits (x.isNegative && y.isNegative) (x.signedUnits + y.signedUnits)
  else if x.isFinite then y
  else if y.isFinite || x.isNegative == y.isNegative then x
  else .nan

/-- The difference. -/
def sub (x y : Number) : Number := x.add y.negate

/-- The product. Zero times infinity has none. -/
def mul (x y : Number) : Number :=
  let negative := x.isNegative != y.isNegative
  if x.isNaN || y.isNaN then .nan
  else if x.isFinite && y.isFinite then ofRatio negative (x.units * y.units) unitsPerOne
  else if x.isZero || y.isZero then .nan
  else infinity negative

/-- The quotient. A zero divisor gives infinity, except for zero by zero; infinity by
    infinity has none either. -/
def div (x y : Number) : Number :=
  let negative := x.isNegative != y.isNegative
  if x.isNaN || y.isNaN then .nan
  else if !x.isFinite then (if y.isFinite then infinity negative else .nan)
  else if !y.isFinite then zero negative
  else if y.isZero then (if x.isZero then .nan else infinity negative)
  else ofRatio negative (x.units * unitsPerOne) y.units

/-! ## Integers -/

/-- The integer part of a finite number, towards zero. -/
def integerPart? (x : Number) : Option Int :=
  if x.isFinite then
    let whole := x.units / unitsPerOne
    some (if x.isNegative then -(whole : Int) else whole)
  else none

/-- The natural number that a number is exactly. Both zeros are the natural number zero. -/
def toNat? (x : Number) : Option Nat :=
  if x.isFinite && (!x.isNegative || x.isZero) && x.units % unitsPerOne == 0 then
    some (x.units / unitsPerOne)
  else none

/-- The number without its fraction. The sign stays, also on a zero. -/
def trunc (x : Number) : Number :=
  if x.isFinite then ofRatio x.isNegative (x.units / unitsPerOne * unitsPerOne) 1 else x

/-- The remainder of the truncated division of two finite numbers, exact, with the sign
    of the dividend. There is none for a zero divisor or an operand that is not finite. -/
def rem? (x y : Number) : Option Number :=
  if x.isFinite && y.isFinite && !y.isZero then
    some (ofRatio x.isNegative (x.units % y.units) 1)
  else none

end ValueRuntime.Number
