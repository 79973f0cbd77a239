import ValueRuntime.Text.Percent

/-! # Truth values as text

    Flags of the command line have a fixed set of spellings (`truthValue?`). Switches of an
    image are more liberal (`isOn`): every text has a meaning, and most mean "off".
-/

namespace ValueRuntime

/-- The spellings of a truth value. -/
def truthValue? (value : Bytes) : Option Bool :=
  if ["1", "t", "T", "TRUE", "true", "True"].any (utf8 · == value) then some true
  else if ["0", "f", "F", "FALSE", "false", "False"].any (utf8 · == value) then some false
  else none

/-- A text with its ASCII letters in lower case. -/
def Bytes.lowerCase (s : Bytes) : Bytes :=
  s.map fun b => if 0x41 ≤ b && b ≤ 0x5a then b + 0x20 else b

/-- The natural number that a text starts with, in decimal or after `0x` in hexadecimal. It
    counts as zero from `2 ^ 31` on. -/
def leadingNumber (s : Bytes) : Nat :=
  let base (n : Nat) (digits : Bytes) : Nat :=
    (digits.filterMap Percent.digit?).foldl (fun value digit => value * n + digit) 0
  let isHex (b : UInt8) : Bool := (Percent.digit? b).isSome
  let value :=
    if utf8 "0x" == Bytes.lowerCase (s.take 2) && ((s.drop 2).head?.map isHex).getD false then
      base 16 ((s.drop 2).takeWhile isHex)
    else base 10 (s.takeWhile fun b => 0x30 ≤ b && b ≤ 0x39)
  if value < 0x80000000 then value else 0

/-- Whether a switch is on. A number counts by its last byte. -/
def isOn (value : Bytes) : Bool :=
  match value.head? with
  | none => false
  | some b =>
    if 0x30 ≤ b && b ≤ 0x39 then leadingNumber value % 256 != 0
    else ["on", "yes", "true"].any (utf8 · == value.lowerCase)

end ValueRuntime
