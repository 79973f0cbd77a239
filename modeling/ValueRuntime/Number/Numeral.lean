import ValueRuntime.Number.Pair
import ValueRuntime.Text.Bytes

/-! # Decimal numerals

    A numeral is a sign, digits, and optionally a point with further digits and an exponent.
    Blanks around it do not count. A plain numeral, without point and exponent, is an exact
    integer if it fits in 64 bits. Every other numeral stands for a number that is computed
    from about nineteen of its digits.
-/

namespace ValueRuntime

/-- A decimal numeral. -/
structure Numeral where
  isNegative : Bool
  /-- The digits before the point. -/
  whole : Bytes
  /-- The digits after the point, if there is one. -/
  fraction : Option Bytes
  /-- Whether the exponent is negative, and its digits, if there is one. -/
  exponent : Option (Bool × Bytes)
  deriving DecidableEq, Repr

namespace Numeral

/-! ## Reading -/

/-- A blank around a numeral. -/
def isBlank (b : UInt8) : Bool := b == 0x20 || (0x09 ≤ b && b ≤ 0x0d)

/-- A decimal digit. -/
def isDigit (b : UInt8) : Bool := 0x30 ≤ b && b ≤ 0x39

/-- The value of a digit. -/
def digitValue (b : UInt8) : Nat := b.toNat - 0x30

/-- A text without blanks at both ends. -/
def trim (s : Bytes) : Bytes :=
  ((s.dropWhile isBlank).reverse.dropWhile isBlank).reverse

/-- Whether a minus sign stands before the digits, and what follows the sign. -/
def sign : Bytes → Bool × Bytes
  | 0x2d :: rest => (true, rest)
  | 0x2b :: rest => (false, rest)
  | rest => (false, rest)

/-- Reads the exponent that a text consists of. An empty text has none. -/
def exponent? : Bytes → Option (Option (Bool × Bytes))
  | [] => some none
  | mark :: rest =>
    let (negative, digits) := sign rest
    if (mark == 0x65 || mark == 0x45) && !digits.isEmpty && digits.all isDigit then
      some (some (negative, digits))
    else none

/-- **The numeral that a text is,** if it has a digit before the exponent. -/
def ofText? (text : Bytes) : Option Numeral := do
  let (negative, rest) := sign (trim text)
  let (whole, rest) := rest.span isDigit
  let (fraction, rest) := match rest with
    | 0x2e :: rest => let (digits, rest) := rest.span isDigit; (some digits, rest)
    | rest => (none, rest)
  if whole.isEmpty && (fraction.getD []).isEmpty then none
  else return ⟨negative, whole, fraction, ← exponent? rest⟩

/-! ## The value -/

/-- Digits are taken up as long as the digits so far stand for less than this. -/
def digitLimit : Nat := (0x10000000000000000 - 10) / 10

/-- Takes up a digit before the point. The second component counts the digits left out. -/
def takeWhole : Nat × Nat → UInt8 → Nat × Nat
  | (n, dropped), b =>
    if n < digitLimit then (n * 10 + digitValue b, dropped) else (n, dropped + 1)

/-- Takes up a digit after the point. The second component counts the digits taken. -/
def takeFraction : Nat × Nat → UInt8 → Nat × Nat
  | (n, taken), b =>
    if n < digitLimit then (n * 10 + digitValue b, taken + 1) else (n, taken)

/-- The digits of a numeral as a natural number, and the power of ten that belongs to it. -/
def significand (x : Numeral) : Nat × Int :=
  let (n, dropped) := x.whole.foldl takeWhole (0, 0)
  let (n, taken) := (x.fraction.getD []).foldl takeFraction (n, 0)
  (n, dropped - taken)

/-- The exponent that is written, zero if there is none. Digits after the fifth do not
    count. -/
def writtenExponent (x : Numeral) : Int :=
  match x.exponent with
  | none => 0
  | some (negative, digits) =>
    let n : Nat :=
      digits.foldl (fun e b => if e < 10000 then e * 10 + digitValue b else 10000) 0
    if negative then -n else n

/-- Moves tens from a power of ten into the number before it, as long as that stays a word of
    64 bits. -/
def absorbTens : (exponent : Nat) → Nat → Nat × Nat
  | 0, n => (n, 0)
  | exponent + 1, n =>
    if n < (0x10000000000000000 - 0x800) / 10 then absorbTens exponent (n * 10) else (n, exponent + 1)

/-- Cancels tens between a number and the power of ten that divides it. -/
def cancelTens : (exponent : Nat) → Nat → Nat × Nat
  | 0, n => (n, 0)
  | exponent + 1, n => if n % 10 = 0 then cancelTens exponent (n / 10) else (n, exponent + 1)

/-- The magnitude of a number times a power of ten. -/
def magnitude (n : Nat) (exponent : Int) : Number :=
  if n = 0 then Number.zero false
  else
    let pair :=
      if 0 ≤ exponent then
        let (n, left) := absorbTens exponent.toNat n
        (Number.Pair.ofWord n).scale left
      else
        let (n, left) := cancelTens (-exponent).toNat n
        (Number.Pair.ofWord n).scale (-left)
    if pair.sum.isNaN then Number.infinity false else pair.sum

/-- **The number that a numeral stands for.** -/
def value (x : Numeral) : Number :=
  let (n, shift) := x.significand
  let r := magnitude n (x.writtenExponent + shift)
  if x.isNegative then r.negate else r

/-- Whether a numeral has neither point nor exponent. -/
def isPlain (x : Numeral) : Bool := x.fraction.isNone && x.exponent.isNone

/-- The integer of a plain numeral. -/
def plainValue (x : Numeral) : Int :=
  let n : Nat := x.whole.foldl (fun n b => n * 10 + digitValue b) 0
  if x.isNegative then -n else n

/-- Integers of 64 bits are below this, and not below its opposite. -/
def integerLimit : Int := 0x8000000000000000

/-- **The integer that a numeral stands for,** if it is one of 64 bits. A numeral that is not
    plain cannot stand for the least of them. -/
def integer? (x : Numeral) : Option Int :=
  if x.isPlain && -integerLimit ≤ x.plainValue && x.plainValue < integerLimit then some x.plainValue
  else do
    let n ← x.value.integerPart?
    if x.value.units % Number.unitsPerOne = 0 && -integerLimit < n && n < integerLimit then some n
    else none

end Numeral

end ValueRuntime
