import ValueRuntime.Text.Bytes

/-! # UTF-8

    Strict UTF-8: no overlong forms, no surrogates, nothing above U+10FFFF. `pieces` splits
    any byte string, `codePoints?` decodes one that is valid, `encode` writes one code
    point, and `isValid` says whether a byte string decodes.
-/

namespace ValueRuntime.Utf8

/-- A byte that continues a code point. -/
def isContinuation (b : UInt8) : Bool := 0x80 ≤ b && b ≤ 0xbf

/-- The six payload bits of a continuation byte. -/
def payload (b : UInt8) : Nat := b.toNat % 64

/-- Whether `b` may follow the lead byte `a` of a three byte form. -/
def isSecondOfThree (a b : UInt8) : Bool :=
  isContinuation b && (a != 0xe0 || 0xa0 ≤ b) && (a != 0xed || b ≤ 0x9f)

/-- Whether `b` may follow the lead byte `a` of a four byte form. -/
def isSecondOfFour (a b : UInt8) : Bool :=
  isContinuation b && (a != 0xf0 || 0x90 ≤ b) && (a != 0xf4 || b ≤ 0x8f)

/-- A part of a byte string: a code point, or a byte that is part of none. -/
inductive Piece where
  | point (n : Nat)
  | stray (b : UInt8)
  deriving DecidableEq, Repr

/-- The code point of a piece. -/
def Piece.point? : Piece → Option Nat
  | .point n => some n
  | .stray _ => none

/-- **The pieces of a byte string:** code points wherever one is encoded, and strays. -/
def pieces : Bytes → List Piece
  | [] => []
  | a :: r1 =>
    if a < 0x80 then .point a.toNat :: pieces r1
    else match r1 with
      | [] => [.stray a]
      | b :: r2 =>
        if 0xc2 ≤ a && a ≤ 0xdf && isContinuation b then
          .point (a.toNat % 32 * 64 + payload b) :: pieces r2
        else match r2 with
          | [] => .stray a :: pieces [b]
          | c :: r3 =>
            if 0xe0 ≤ a && a ≤ 0xef && isSecondOfThree a b && isContinuation c then
              .point (a.toNat % 16 * 4096 + payload b * 64 + payload c) :: pieces r3
            else match r3 with
              | [] => .stray a :: pieces [b, c]
              | d :: r4 =>
                if 0xf0 ≤ a && a ≤ 0xf4 && isSecondOfFour a b && isContinuation c
                    && isContinuation d then
                  .point (a.toNat % 8 * 262144 + payload b * 4096 + payload c * 64 + payload d)
                    :: pieces r4
                else .stray a :: pieces (b :: c :: d :: r4)

/-- The code points that a byte string encodes, if it is valid: it has no strays. -/
def codePoints? (s : Bytes) : Option (List Nat) := (pieces s).mapM Piece.point?

/-- Whether a byte string is valid UTF-8. -/
def isValid (s : Bytes) : Bool := (codePoints? s).isSome

/-- The UTF-8 bytes of one code point. -/
def encode (point : Nat) : Bytes :=
  if point < 0x80 then [point.toUInt8]
  else if point < 0x800 then [(0xc0 + point / 64).toUInt8, (0x80 + point % 64).toUInt8]
  else if point < 0x10000 then
    [(0xe0 + point / 4096).toUInt8, (0x80 + point / 64 % 64).toUInt8,
      (0x80 + point % 64).toUInt8]
  else
    [(0xf0 + point / 262144).toUInt8, (0x80 + point / 4096 % 64).toUInt8,
      (0x80 + point / 64 % 64).toUInt8, (0x80 + point % 64).toUInt8]

end ValueRuntime.Utf8
