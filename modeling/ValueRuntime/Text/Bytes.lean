/-! # Byte strings

    All text of the runtime is a byte string: string values, names, messages and output.
    A byte string need not be valid UTF-8; `ValueRuntime.Text.Utf8` says when it is.
-/

namespace ValueRuntime

/-- A string of bytes. -/
abbrev Bytes := List UInt8

/-- The UTF-8 bytes of a text. -/
def utf8 (text : String) : Bytes := text.toUTF8.data.toList

namespace Bytes

/-- Byte-wise lexicographic order. -/
def less (a b : Bytes) : Bool := decide (a < b)

/-- The decimal digits of a natural number. -/
def decimal (n : Nat) : Bytes := (Nat.toDigits 10 n).map fun c => c.toNat.toUInt8

/-- The last `width` lower-case hexadecimal digits of a natural number. -/
def hex : (width : Nat) → Nat → Bytes
  | 0, _ => []
  | width + 1, n => hex width (n / 16) ++ [(Nat.digitChar (n % 16)).toNat.toUInt8]

/-- The last `width` bytes of a natural number, the most significant first. -/
def bigEndian : (width : Nat) → Nat → Bytes
  | 0, _ => []
  | width + 1, n => bigEndian width (n / 256) ++ [(n % 256).toUInt8]

/-- The natural number that bytes stand for, the most significant byte first. -/
def toNat (s : Bytes) : Nat := s.foldl (fun n b => n * 256 + b.toNat) 0

/-- The parts with a separator between neighbours. -/
def join (separator : Bytes) : List Bytes → Bytes
  | [] => []
  | [part] => part
  | part :: rest => part ++ separator ++ join separator rest

/-- The string written `count` times. Nothing is written for the empty string. -/
def repeated (count : Nat) (s : Bytes) : Bytes :=
  if s.isEmpty then [] else (List.replicate count s).flatten

end Bytes

end ValueRuntime
