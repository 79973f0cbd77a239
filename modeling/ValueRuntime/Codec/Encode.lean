import ValueRuntime.Codec.Failure
import ValueRuntime.Codec.Record
import ValueRuntime.Datum.Text

/-! # Encoding

    Every datum without functions whose lists and objects nest at most 255 deep has an
    encoded form. A datum is entered from left to right, and each key before its value; the
    first thing that cannot be encoded is the failure. Capacities are not encoded.
-/

namespace ValueRuntime.Codec

/-- The deepest nesting of lists and objects. -/
def maxDepth : Nat := 255

/-- All results, or the first error together with its position in the list. -/
def collectItems : (index : Nat) → List (Except EncodeError Record) →
    Except EncodeError (List Record)
  | _, [] => .ok []
  | index, result :: rest => do
    let first ← result.mapError (·.within (.listElement index))
    let more ← collectItems (index + 1) rest
    return first :: more

/-- All keys and values, or the first error. A key without a value is a fault, met before
    the key is entered. -/
def collectPairs (values : List (Except EncodeError Record)) :
    (index : Nat) → (keys : List (Bytes × Except EncodeError Record)) →
    Except EncodeError (List Record × List Record)
  | _, [] => .ok ([], [])
  | index, (shown, key) :: rest =>
    match values[index]? with
    | none => .error (.fault (.indexOutOfRange index values.length))
    | some value => do
      let first ← key.mapError (·.within (.objectKey shown))
      let second ← value.mapError (·.within (.objectMember shown))
      let more ← collectPairs values (index + 1) rest
      return (first :: more.1, second :: more.2)

/-- The record of a scalar with only its kind set. -/
def kindRecord (kind : Kind) : Record := { Record.empty with kind := kind.code }

mutual

/-- **The record** of a datum inside `depth` containers. -/
def Record.ofDatum (depth : Nat) : Datum → Except EncodeError Record
  | .nil => .ok (kindRecord .nil)
  | .boolean b => .ok { kindRecord .boolean with flag := b }
  | .number x => .ok { kindRecord .number with number := x }
  | .string s => .ok { kindRecord .string with text := s }
  | .list _ items =>
    if maxDepth ≤ depth then .error (.failure (.here .tooDeep))
    else do
      let records ← collectItems 0 (ofData (depth + 1) items)
      return { kindRecord .list with items := records }
  | .object _ keys values =>
    if maxDepth ≤ depth then .error (.failure (.here .tooDeep))
    else do
      let shown := keys.map fun key => keyText key.text
      let pairs ← collectPairs (ofData (depth + 1) values) 0
        (shown.zip (ofData (depth + 1) keys))
      return { kindRecord .object with items := pairs.2, keys := pairs.1 }
  | .hollow =>
    if maxDepth ≤ depth then .error (.failure (.here .tooDeep)) else .error (.fault .noContents)
  | .function _ => .error (.failure (.here .function))

/-- The records of several data inside `depth` containers. -/
def ofData (depth : Nat) : List Datum → List (Except EncodeError Record)
  | [] => []
  | d :: rest => Record.ofDatum depth d :: ofData depth rest

end

/-- **The encoded form** of a datum. -/
def encode (d : Datum) : Except EncodeError Bytes := do
  let record ← Record.ofDatum 0 d
  return record.toItem.write

end ValueRuntime.Codec
