import ValueRuntime.Number.Arithmetic

/-! # Numbers in two parts

    The sum of two binary64 numbers, one much larger than the other, holds about twice as
    many digits as one number. A product of such pairs is formed by splitting the large
    parts in halves, whose products are exact, and by adding the errors of the other steps
    to the small part.
-/

namespace ValueRuntime.Number

/-- The sum of a large and a small number. -/
structure Pair where
  high : Number
  low : Number
  deriving DecidableEq, Repr

/-- The number with the lower half of its fraction cleared. -/
def upperHalf (x : Number) : Number := ofBits (x.toBits / 0x4000000 * 0x4000000)

namespace Pair

/-- **The pair nearest to a fraction:** the nearest number, and the number nearest to what is
    left. -/
def ofRatio (num den : Nat) : Pair :=
  let high := Number.ofRatio false (num * unitsPerOne) den
  let rest : Int := num * unitsPerOne - high.units * den
  ⟨high, Number.ofRatio (rest < 0) rest.natAbs den⟩

/-- The pair for a word of 64 bits. What is left is dropped when the nearest number is no
    such word. -/
def ofWord (n : Nat) : Pair :=
  let pair := ofRatio n 1
  if pair.high.units < 0x10000000000000000 * unitsPerOne then pair else ⟨pair.high, zero false⟩

/-- The product of two pairs. The product of the small parts is left out. -/
def mul (x y : Pair) : Pair :=
  let hx := x.high.upperHalf
  let tx := x.high.sub hx
  let hy := y.high.upperHalf
  let ty := y.high.sub hy
  let p := hx.mul hy
  let q := (hx.mul ty).add (tx.mul hy)
  let c := p.add q
  let error := ((p.sub c).add q).add (tx.mul ty)
  let error := ((x.high.mul y.low).add (x.low.mul y.high)).add error
  let high := c.add error
  ⟨high, (c.sub high).add error⟩

/-- The pair times a factor, a number of times. -/
def mulTimes (factor : Pair) (count : Nat) (x : Pair) : Pair := Nat.repeat (mul · factor) count x

/-- The pair for a power of ten. -/
def powerOfTen (exponent : Int) : Pair :=
  if 0 ≤ exponent then ofRatio (Nat.pow 10 exponent.toNat) 1
  else ofRatio 1 (Nat.pow 10 (-exponent).toNat)

/-- **The pair times a power of ten,** by hundreds, tens and ones of the exponent. -/
def scale (exponent : Int) (x : Pair) : Pair :=
  let count := exponent.natAbs
  let factor (n : Nat) : Pair := powerOfTen (if exponent < 0 then -n else n)
  let x := mulTimes (factor 100) (count / 100) x
  let x := mulTimes (factor 10) (count % 100 / 10) x
  mulTimes (factor 1) (count % 10) x

/-- The number that the pair stands for. -/
def sum (x : Pair) : Number := x.high.add x.low

end Pair

end ValueRuntime.Number
