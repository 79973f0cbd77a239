import ValueRuntime.Datum.Basic
import ValueRuntime.Fault
import ValueRuntime.Number.Text

/-! # The text of a datum

    What printing shows. Strings are not quoted, wherever they stand. A key without a value
    is a fault, met after the key itself has been written.
-/

namespace ValueRuntime.Datum

/-- The texts of an object's pairs, in order. The first fault met counts, each key being
    written before its value is looked up. -/
def pairTexts (values : List (Except Fault Bytes)) :
    (index : Nat) → (keys : List (Except Fault Bytes)) → Except Fault (List Bytes)
  | _, [] => .ok []
  | index, key :: rest => do
    let keyText ← key
    let valueText ← values[index]?.getD (.error (.indexOutOfRange index values.length))
    let more ← pairTexts values (index + 1) rest
    return (keyText ++ utf8 ": " ++ valueText) :: more

/-- All texts, or the first fault. -/
def allTexts : List (Except Fault Bytes) → Except Fault (List Bytes)
  | [] => .ok []
  | text :: rest => do
    let first ← text
    let more ← allTexts rest
    return first :: more

mutual

/-- **The text** of a datum. -/
def text : Datum → Except Fault Bytes
  | .nil => .ok (utf8 "nil")
  | .boolean b => .ok (utf8 (if b then "true" else "false"))
  | .number x => .ok x.text
  | .string s => .ok s
  | .list _ items => do
    let parts ← allTexts (texts items)
    return utf8 "[" ++ Bytes.join (utf8 ", ") parts ++ utf8 "]"
  | .object _ keys values => do
    let parts ← pairTexts (texts values) 0 (texts keys)
    return utf8 "\x7b" ++ Bytes.join (utf8 ", ") parts ++ utf8 "\x7d"
  | .hollow => .error .noContents
  | .function _ => .ok (utf8 "<function>")

/-- The text, or fault, of each datum. -/
def texts : List Datum → List (Except Fault Bytes)
  | [] => []
  | d :: rest => text d :: texts rest

end

/-- The first fault that walking the pairs of every object meets: a missing value is found
    before its key is entered, and a key is entered before its value. -/
def pairFaults (values : List (Option Fault)) :
    (index : Nat) → (keys : List (Option Fault)) → Option Fault
  | _, [] => none
  | index, key :: rest =>
    match values[index]? with
    | none => some (.indexOutOfRange index values.length)
    | some value => key <|> value <|> pairFaults values (index + 1) rest

mutual

/-- The fault of **reading everything** in a datum, if there is one. -/
def readFault? : Datum → Option Fault
  | .list _ items => (readFaults items).foldr (· <|> ·) none
  | .object _ keys values => pairFaults (readFaults values) 0 (readFaults keys)
  | .hollow => some .noContents
  | _ => none

/-- The fault of reading everything in each datum. -/
def readFaults : List Datum → List (Option Fault)
  | [] => []
  | d :: rest => readFault? d :: readFaults rest

end

end ValueRuntime.Datum
