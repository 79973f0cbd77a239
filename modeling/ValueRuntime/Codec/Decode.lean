import ValueRuntime.Codec.Failure
import ValueRuntime.Codec.Record
import ValueRuntime.Progression

/-! # Decoding

    A record is turned into the datum of its kind; fields that the kind does not use are
    ignored. Items and keys are appended one by one, which decides their capacity. Of equal
    keys of an object the first gives the place and the last the value.
-/

namespace ValueRuntime.Codec

/-- The keys and values of an object in insertion order. -/
structure Entries where
  keys : List Datum
  values : List Datum

/-- The entries with a value stored under a key: in the place of an equal key, else at the
    end. -/
def Entries.store (entries : Entries) (key value : Datum) : Entries :=
  match entries.keys.findIdx? (·.equal key) with
  | some index => { entries with values := entries.values.set index value }
  | none => ⟨entries.keys ++ [key], entries.values ++ [value]⟩

/-- The object with given entries. -/
def Entries.toDatum (entries : Entries) : Datum :=
  .object (capacityAfter defaultCapacity 0 entries.keys.length) entries.keys entries.values

/-- All data, or the first failure together with its position in the list. -/
def collectData : (index : Nat) → List (Except Failure Datum) → Except Failure (List Datum)
  | _, [] => .ok []
  | index, result :: rest => do
    let first ← result.mapError (·.within (.listElement index))
    let more ← collectData (index + 1) rest
    return first :: more

/-- Stores all pairs in order, or gives the first failure. -/
def collectEntries (entries : Entries) : (index : Nat) →
    List (Except Failure Datum × Except Failure Datum) → Except Failure Entries
  | _, [] => .ok entries
  | index, (key, value) :: rest => do
    let shown := Bytes.decimal index
    let key ← key.mapError (·.within (.objectKey shown))
    let value ← value.mapError (·.within (.objectMember shown))
    collectEntries (entries.store key value) (index + 1) rest

mutual

/-- **The datum** of a record. -/
def Record.toDatum : Record → Except Failure Datum
  | ⟨kind, flag, number, text, items, keys⟩ =>
    match Kind.ofCode? kind with
    | some .nil => .ok .nil
    | some .boolean => .ok (.boolean flag)
    | some .number => .ok (.number number)
    | some .string => .ok (.string text)
    | some .list => do
      let data ← collectData 0 (toData items)
      return .list (capacityAfter defaultCapacity 0 data.length) data
    | some .object =>
      if keys.length ≠ items.length then .error (.here (.keyCount keys.length items.length))
      else do
        let entries ← collectEntries ⟨[], []⟩ 0 ((toData keys).zip (toData items))
        return entries.toDatum
    | some .function => .error (.here .function)
    | none => .error (.here (.invalidKind kind))

/-- The data of several records. -/
def toData : List Record → List (Except Failure Datum)
  | [] => []
  | record :: rest => record.toDatum :: toData rest

end

/-- **The datum** that bytes encode. -/
def decode (input : Bytes) : Except DecodeError Datum := do
  let item ← (Item.read input).mapError .malformed
  let record ← (Record.ofItem item).mapError .malformed
  record.toDatum.mapError .failure

end ValueRuntime.Codec
