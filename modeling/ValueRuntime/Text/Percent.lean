import ValueRuntime.Text.Bytes

/-! # Percent escapes and lists of options

    In the options of an image path, `%` and two hexadecimal digits stand for a byte. Two
    readings are in use. The strict one (`strict?`) refuses a `%` without digits and reads
    `+` as a blank. The lenient one (`lenient`) lets both stand for themselves, and drops
    what follows an escaped zero byte.
-/

namespace ValueRuntime.Percent

/-- The value of a hexadecimal digit. -/
def digit? (b : UInt8) : Option Nat :=
  if 0x30 ≤ b && b ≤ 0x39 then some (b.toNat - 0x30)
  else if 0x41 ≤ b && b ≤ 0x46 then some (b.toNat - 0x37)
  else if 0x61 ≤ b && b ≤ 0x66 then some (b.toNat - 0x57)
  else none

/-- The byte that two hexadecimal digits stand for. -/
def byte? (high low : UInt8) : Option UInt8 := do
  return ((← digit? high) * 16 + (← digit? low)).toUInt8

/-- The byte `%`. -/
def mark : UInt8 := 0x25

/-- **The strict reading.** -/
def strict? : Bytes → Option Bytes
  | [] => some []
  | b :: rest =>
    if b == mark then
      match rest with
      | high :: low :: rest => do return (← byte? high low) :: (← strict? rest)
      | _ => none
    else do return (if b == 0x2b then 0x20 else b) :: (← strict? rest)

/-- **The lenient reading.** -/
def lenient : Bytes → Bytes
  | b :: high :: low :: rest =>
    match if b == mark then byte? high low else none with
    | none => b :: lenient (high :: low :: rest)
    | some 0 => []
    | some c => c :: lenient rest
  | rest => rest

/-- A text up to a byte and what follows that byte. -/
def cut (separator : UInt8) (s : Bytes) : Bytes × Bytes :=
  (s.takeWhile (· != separator), (s.dropWhile (· != separator)).drop 1)

/-- The options between `&` signs, each a name and the value after `=`. Of an option without
    `=` the value is empty. -/
def options (s : Bytes) : List (Bytes × Bytes) := (s.splitOn 0x26).map (cut 0x3d)

end ValueRuntime.Percent
