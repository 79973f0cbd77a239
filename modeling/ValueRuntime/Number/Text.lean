import ValueRuntime.Number.Arithmetic
import ValueRuntime.Text.Bytes

/-! # The text of a number

    A finite number is written with the six significant digits nearest to its exact value,
    a tie going to the even last digit. Zeros at the end of the fraction are dropped. The
    text is positional while the decimal exponent lies in `-4 ≤ e < 6`, and otherwise has
    one leading digit and an exponent of at least two digits.
-/

namespace ValueRuntime.Number

/-! ## Six significant digits -/

/-- How many significant digits are written. -/
def precision : Nat := 6

/-- A positive decimal with `precision` significant digits: `digits * 10 ^ (exponent - 5)`. -/
structure Decimal where
  /-- The significant digits as one natural number. -/
  digits : Nat
  /-- The power of ten of the first digit. -/
  exponent : Int
  deriving DecidableEq, Repr

/-- The number of times `den` can be multiplied by ten without passing `num`. -/
def tensBelow (num den : Nat) : (fuel : Nat) → Nat
  | 0 => 0
  | fuel + 1 => if den * 10 ≤ num then tensBelow num (den * 10) fuel + 1 else 0

/-- The number of times `num` has to be multiplied by ten to reach `den`. -/
def tensToReach (num den : Nat) : (fuel : Nat) → Nat
  | 0 => 0
  | fuel + 1 => if num < den then tensToReach (num * 10) den fuel + 1 else 0

/-- The decimal exponent of the positive ratio `num / den`: the largest `e` with
    `10 ^ e ≤ num / den`. No number of the format needs more than 400 powers of ten. -/
def decimalExponent (num den : Nat) : Int :=
  if den ≤ num then tensBelow num den 400 else -(tensToReach num den 400 : Int)

/-- The decimal nearest to the positive ratio `num / den`. Rounding up to a seventh digit
    moves the exponent instead. -/
def Decimal.nearest (num den : Nat) : Decimal :=
  let exponent := decimalExponent num den
  let digits :=
    if exponent < precision then roundDiv (num * Nat.pow 10 (precision - 1 - exponent).toNat) den
    else roundDiv num (den * Nat.pow 10 (exponent - (precision - 1)).toNat)
  if digits = Nat.pow 10 precision then ⟨Nat.pow 10 (precision - 1), exponent + 1⟩
  else ⟨digits, exponent⟩

/-! ## Writing a decimal -/

/-- The last `count` decimal digits of a natural number, the most significant first. -/
def lastDigits : (count : Nat) → Nat → List Nat
  | 0, _ => []
  | count + 1, n => lastDigits count (n / 10) ++ [n % 10]

/-- The significant digits without the zeros at their end. -/
def Decimal.significant (d : Decimal) : List Nat :=
  ((lastDigits precision d.digits).reverse.dropWhile (· == 0)).reverse

/-- A digit as text. -/
def digitText (digit : Nat) : UInt8 := (48 + digit).toUInt8

/-- Digits after a point, or nothing when there are none. -/
def fraction (digits : List Nat) : Bytes :=
  if digits.isEmpty then [] else utf8 "." ++ digits.map digitText

/-- An exponent with its sign and at least two digits. -/
def exponentText (exponent : Int) : Bytes :=
  let size := exponent.natAbs
  utf8 (if exponent < 0 then "e-" else "e+") ++ (if size < 10 then utf8 "0" else [])
    ++ Bytes.decimal size

/-- Positional text. -/
def Decimal.positional (d : Decimal) : Bytes :=
  if d.exponent < 0 then
    utf8 "0" ++ fraction (List.replicate (d.exponent.natAbs - 1) 0 ++ d.significant)
  else
    let whole := d.exponent.toNat + 1
    let padded := d.significant ++ List.replicate (whole - d.significant.length) 0
    (padded.take whole).map digitText ++ fraction (padded.drop whole)

/-- Text with an exponent. -/
def Decimal.scientific (d : Decimal) : Bytes :=
  (d.significant.take 1).map digitText ++ fraction (d.significant.drop 1)
    ++ exponentText d.exponent

/-- The text of a positive decimal. -/
def Decimal.text (d : Decimal) : Bytes :=
  if -4 ≤ d.exponent && d.exponent < precision then d.positional else d.scientific

/-! ## The text of a number -/

/-- The text of a number's magnitude. -/
def magnitudeText (x : Number) : Bytes :=
  if !x.isFinite then utf8 "inf"
  else if x.units = 0 then utf8 "0"
  else (Decimal.nearest x.units unitsPerOne).text

/-- The text of a number, with a minus for every set sign bit. -/
def text (x : Number) : Bytes :=
  if x.isNaN then utf8 "nan"
  else (if x.isNegative then utf8 "-" else []) ++ x.magnitudeText

end ValueRuntime.Number
