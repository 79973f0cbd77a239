import ValueRuntime.Text.Printable
import ValueRuntime.Text.Utf8

/-! # Quoted text in messages

    Text that a user wrote is shown in double quotes. Quote and backslash are escaped by a
    backslash, the usual control characters by their letters, and every other code point
    that is not printable by its number in hexadecimal.
-/

namespace ValueRuntime.Quoted

/-- The letter that stands for a control character after a backslash. -/
def controlLetter? : Nat → Option String
  | 7 => some "a"
  | 8 => some "b"
  | 12 => some "f"
  | 10 => some "n"
  | 13 => some "r"
  | 9 => some "t"
  | 11 => some "v"
  | _ => none

/-- One code point as it stands between the quotes. -/
def escape (point : Nat) : Bytes :=
  if point = 0x22 || point = 0x5c then utf8 "\\" ++ Utf8.encode point
  else if isPrintable point then Utf8.encode point
  else match controlLetter? point with
    | some letter => utf8 "\\" ++ utf8 letter
    | none =>
      if point < 0x20 || point = 0x7f then utf8 "\\x" ++ Bytes.hex 2 point
      else if point < 0x10000 then utf8 "\\u" ++ Bytes.hex 4 point
      else utf8 "\\U" ++ Bytes.hex 8 point

/-- One piece of a text as it stands between the quotes. A byte that is part of no code
    point is shown by its number. -/
def escapePiece : Utf8.Piece → Bytes
  | .point n => escape n
  | .stray b => utf8 "\\x" ++ Bytes.hex 2 b.toNat

/-- The text in double quotes. -/
def quote (text : Bytes) : Bytes :=
  utf8 "\"" ++ (Utf8.pieces text).flatMap escapePiece ++ utf8 "\""

end ValueRuntime.Quoted
