import ValueRuntime.Number.Arithmetic

/-! # Narrow number formats

    The half (16 bit) and single (32 bit) formats, which hold some of the binary64 numbers.
    `widen` reads a narrow bit pattern, and `narrow?` finds the pattern for a number when
    there is one that reads back as exactly that number.
-/

namespace ValueRuntime.Number

/-- A binary format, given by the sizes of its two fields. -/
structure Format where
  fractionBits : Nat
  exponentBits : Nat
  deriving DecidableEq, Repr

namespace Format

/-- The 16 bit format. -/
def half : Format := ⟨10, 5⟩

/-- The 32 bit format. -/
def single : Format := ⟨23, 8⟩

/-- The weight of the sign bit. -/
def signWeight (f : Format) : Nat := Nat.pow 2 (f.fractionBits + f.exponentBits)

/-- The code of infinity. -/
def infinityCode (f : Format) : Nat := (Nat.pow 2 f.exponentBits - 1) * Nat.pow 2 f.fractionBits

/-- The smallest positive number of the format, in binary64 units. -/
def unit (f : Format) : Nat := Nat.pow 2 (1076 - Nat.pow 2 (f.exponentBits - 1) - f.fractionBits)

/-- The number with a given bit pattern. -/
def widen (f : Format) (bits : Nat) : Number :=
  let negative := bits / f.signWeight % 2 == 1
  let code := bits % f.signWeight
  if code < f.infinityCode then
    ofRatio negative (unitsOfCode f.fractionBits code * f.unit) 1
  else if code = f.infinityCode then infinity negative
  else .nan

/-- The bit pattern of the number nearest to a given one, infinity included. -/
def nearestBits (f : Format) (x : Number) : Nat :=
  let sign := if x.isNegative then f.signWeight else 0
  sign + (if x.isFinite then nearestCode f.fractionBits x.units f.unit else f.infinityCode)

/-- The bit pattern of a number that the format holds exactly. -/
def narrow? (f : Format) (x : Number) : Option Nat :=
  let bits := f.nearestBits x
  if f.widen bits = x then some bits else none

end Format

end ValueRuntime.Number
