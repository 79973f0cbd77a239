/-! # Binary64 numbers

    A number is one of the values of the binary64 format, with a single "not a number".
    Every other number is a sign and a *code*: the lower 63 bits of its bit pattern read
    as a natural number. Codes grow with the magnitude, and the largest one is infinity,
    so order and equality of numbers are order and equality of signed codes.

    The exact magnitude of a finite number is a natural number of *units* of `2 ^ -1074`,
    the smallest positive number of the format. All arithmetic is done exactly on units
    and rounded once (`ValueRuntime.Number.Arithmetic`).
-/

namespace ValueRuntime

/-! ## Codes and units -/

/-- The number of bits in the fraction field of binary64. -/
def Number.fractionBits : Nat := 52

/-- The code of infinity: all exponent bits set and an empty fraction. -/
def Number.infinityCode : Nat := 0x7ff0000000000000

/-- The weight of the sign bit in a bit pattern. -/
def Number.signWeight : Nat := 0x8000000000000000

/-- A binary64 number. All bit patterns of "not a number" are one value. -/
inductive Number where
  | nan
  | signed (negative : Bool) (code : Fin (Number.infinityCode + 1))
  deriving DecidableEq, Repr

namespace Number

/-- The magnitude that a code stands for, in units of the smallest positive number of a
    format with `p` fraction bits: codes below `2 ^ p` count units themselves, and from
    there on each further `2 ^ p` codes double the step. -/
def unitsOfCode (p code : Nat) : Nat :=
  let step := Nat.pow 2 p
  if code < step then code else (step + code % step) * Nat.pow 2 (code / step - 1)

/-- Units in the number one. -/
def unitsPerOne : Nat := Nat.pow 2 1074

/-- Infinity with the given sign. -/
def infinity (negative : Bool) : Number := .signed negative ⟨infinityCode, by decide⟩

/-- Zero with the given sign. -/
def zero (negative : Bool) : Number := .signed negative ⟨0, by decide⟩

instance : Inhabited Number := ⟨zero false⟩

/-- Whether the number is neither infinite nor "not a number". -/
def isFinite : Number → Bool
  | .nan => false
  | .signed _ code => code.val < infinityCode

/-- Whether the number is "not a number". -/
def isNaN : Number → Bool
  | .nan => true
  | .signed _ _ => false

/-- Whether the sign bit is set. "Not a number" has none. -/
def isNegative : Number → Bool
  | .nan => false
  | .signed negative _ => negative

/-- The magnitude in units. Only meaningful for finite numbers. -/
def units : Number → Nat
  | .nan => 0
  | .signed _ code => unitsOfCode fractionBits code.val

/-- The exact value of a finite number as a signed count of units. -/
def signedUnits (x : Number) : Int :=
  if x.isNegative then -(x.units : Int) else x.units

/-! ## Bit patterns -/

/-- Reads the lower 64 bits of a natural number as a bit pattern. -/
def ofBits (bits : Nat) : Number :=
  if h : bits % signWeight < infinityCode + 1 then
    .signed (bits / signWeight % 2 == 1) ⟨bits % signWeight, h⟩
  else .nan

/-- The bit pattern, with one fixed pattern for "not a number". -/
def toBits : Number → Nat
  | .nan => 0x7ff8000000000000
  | .signed negative code => (if negative then signWeight else 0) + code.val

/-! ## Order and equality -/

/-- The place of a number in the numeric order: its code, counted downwards for a negative
    sign. The two zeros share a place, and "not a number" has none. -/
def place? : Number → Option Int
  | .nan => none
  | .signed negative code => some (if negative then -(code.val : Int) else code.val)

/-- Numeric equality: the zeros are equal, and "not a number" equals nothing. -/
def equal (x y : Number) : Bool :=
  match x.place?, y.place? with
  | some a, some b => a == b
  | _, _ => false

/-- Numeric order: "not a number" is neither below nor above anything. -/
def less (x y : Number) : Bool :=
  match x.place?, y.place? with
  | some a, some b => a < b
  | _, _ => false

/-- Whether the number is a zero of either sign. -/
def isZero (x : Number) : Bool := x.equal (zero false)

/-- The number with its sign flipped. -/
def negate : Number → Number
  | .nan => .nan
  | .signed negative code => .signed (!negative) code

end Number

end ValueRuntime
