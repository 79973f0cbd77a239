import ValueRuntime.Codec.Item
import ValueRuntime.Text.Utf8

/-! # Records

    An encoded value is a record of six fields, written as a map with the keys 1 to 6. Kind
    and number are always written, the other fields only when they are not empty.

    Reading a record is tolerant. Fields may come in any order, under an integer or the text
    of one, and unknown fields are passed over. Of a repeated field the first counts. A tag
    is dropped after a look at its content, and null stands for an empty field.
-/

namespace ValueRuntime.Codec

/-- The fields of an encoded value. -/
structure Record where
  /-- Field 1: the number of the kind. -/
  kind : Nat
  /-- Field 2: the contents of a boolean. -/
  flag : Bool
  /-- Field 3: the contents of a number. -/
  number : Number
  /-- Field 4: the contents of a string. -/
  text : Bytes
  /-- Field 5: the items of a list or the values of an object. -/
  items : List Record
  /-- Field 6: the keys of an object. -/
  keys : List Record
  deriving Repr

/-- The record with every field empty. -/
def Record.empty : Record := ⟨0, false, .zero false, [], [], []⟩

instance : Inhabited Record := ⟨.empty⟩

/-! ## Writing -/

/-- A field that is only written when a condition holds. -/
def optionalField (key : Nat) (present : Bool) (content : Item) : List Item :=
  if present then [.unsigned key, content] else []

mutual

/-- **The item** of a record. -/
def Record.toItem : Record → Item
  | ⟨kind, flag, number, text, items, keys⟩ =>
    .map ([.unsigned 1, .unsigned kind]
      ++ optionalField 2 flag (.simple 21)
      ++ [.unsigned 3, .float number]
      ++ optionalField 4 (!text.isEmpty) (.text [text])
      ++ optionalField 5 (!items.isEmpty) (.array (toItems items))
      ++ optionalField 6 (!keys.isEmpty) (.array (toItems keys)))

/-- The items of several records. -/
def toItems : List Record → List Item
  | [] => []
  | record :: rest => record.toItem :: toItems rest

end

/-! ## Reading scalars -/

/-- Whether an item may be the content of a tag. Tag 0 marks a text, tag 1 an integer or a
    float, and tags 2 and 3 a byte string; every other tag takes anything. -/
def tagAllows : (number : Nat) → Item → Bool
  | 0, .text _ => true
  | 0, _ => false
  | 1, .unsigned _ => true
  | 1, .negative _ => true
  | 1, .float _ => true
  | 1, _ => false
  | 2, .bytes _ => true
  | 2, _ => false
  | 3, .bytes _ => true
  | 3, _ => false
  | _, _ => true

/-- An item without its tags. Tags 2 and 3 make integers of byte strings. -/
def untagged : Item → Except Malformed Item
  | .tag number content =>
    if !tagAllows number content then .error .badTag
    else match number, content with
      | 2, .bytes chunks =>
        if Bytes.toNat chunks.flatten < 0x10000000000000000 then .ok (.unsigned (Bytes.toNat chunks.flatten))
        else .error .wrongType
      | 3, .bytes chunks =>
        if Bytes.toNat chunks.flatten < 0x8000000000000000 then .ok (.negative (Bytes.toNat chunks.flatten))
        else .error .wrongType
      | _, content => untagged content
  | item => .ok item

/-- A text in one piece. Every piece it was written in is valid UTF-8 by itself. -/
def joinText (chunks : List Bytes) : Except Malformed Bytes :=
  if chunks.all Utf8.isValid then .ok chunks.flatten else .error .notUtf8

/-- The refusal of an item of the wrong type. A text is checked before its type is. -/
def refuse {α : Type} : Item → Except Malformed α
  | .text chunks => do
    let _ ← joinText chunks
    throw .wrongType
  | _ => .error .wrongType

/-- Null and undefined leave a field empty. -/
def isNull : Item → Bool
  | .simple n => n == 22 || n == 23
  | _ => false

/-- Whether a simple value is one of false, true, null and undefined. -/
def hasMeaning (n : Nat) : Bool := 20 ≤ n && n ≤ 23

/-- Reads the kind field: a number below 256. -/
def readKind (item : Item) : Except Malformed Nat := do
  let item ← untagged item
  if isNull item then return 0
  match item with
  | .unsigned n => if n < 256 then return n else throw .wrongType
  | .simple n => if hasMeaning n then throw .wrongType else return n
  | item => refuse item

/-- Reads the boolean field. -/
def readFlag (item : Item) : Except Malformed Bool := do
  let item ← untagged item
  if isNull item then return false
  match item with
  | .simple 20 => return false
  | .simple 21 => return true
  | item => refuse item

/-- Reads the number field, into which integers are converted. -/
def readNumber (item : Item) : Except Malformed Number := do
  let item ← untagged item
  if isNull item then return .zero false
  match item with
  | .unsigned n => return .ofNat n
  | .negative n => if n < 0x8000000000000000 then return .ofInt (-1 - n) else throw .wrongType
  | .simple n => if hasMeaning n then throw .wrongType else return .ofNat n
  | .float x => return x
  | item => refuse item

/-- Reads the string field. -/
def readText (item : Item) : Except Malformed Bytes := do
  let item ← untagged item
  if isNull item then return []
  match item with
  | .text chunks => joinText chunks
  | item => refuse item

/-! ## Reading records -/

/-- The fields of a record. -/
inductive Field where
  | kind
  | flag
  | number
  | text
  | items
  | keys
  deriving DecidableEq, Repr

/-- The field with a given key. -/
def Field.ofNumber? : Nat → Option Field
  | 1 => some .kind
  | 2 => some .flag
  | 3 => some .number
  | 4 => some .text
  | 5 => some .items
  | 6 => some .keys
  | _ => none

/-- The field that a text names: the one digit of its key. -/
def Field.ofText? : Bytes → Option Field
  | [digit] => if 0x31 ≤ digit && digit ≤ 0x36 then ofNumber? (digit.toNat - 48) else none
  | _ => none

/-- The field that a key selects. Keys are integers and texts. -/
def Field.ofKey : Item → Except Malformed (Option Field)
  | .unsigned n => .ok (ofNumber? n)
  | .negative n => if n < 0x8000000000000000 then .ok none else .error .wrongType
  | .text chunks => do return ofText? (← joinText chunks)
  | _ => .error .wrongType

/-- A record whose fields have been read in part. -/
structure PartialRecord where
  record : Record
  seen : List Field

mutual

/-- **The record** of an item. -/
def Record.ofItem : Item → Except Malformed Record
  | .tag number content =>
    if !tagAllows number content then .error .badTag
    else if number == 2 || number == 3 then .error .wrongType
    else Record.ofItem content
  | .map entries => do return (← readFields ⟨.empty, []⟩ entries).record
  | item => if isNull item then .ok .empty else refuse item

/-- The records in the array of an items or keys field. -/
def readRecords : Item → Except Malformed (List Record)
  | .tag number content =>
    if !tagAllows number content then .error .badTag
    else if number == 2 || number == 3 then .error .wrongType
    else readRecords content
  | .array items => ofItems items
  | item => if isNull item then .ok [] else refuse item

/-- The records of several items. -/
def ofItems : List Item → Except Malformed (List Record)
  | [] => .ok []
  | item :: rest => do
    let first ← Record.ofItem item
    let more ← ofItems rest
    return first :: more

/-- Reads the keys and values of a map in turn. -/
def readFields (sofar : PartialRecord) : List Item → Except Malformed PartialRecord
  | key :: content :: rest => do
    match ← Field.ofKey key with
    | none => readFields sofar rest
    | some field =>
      if sofar.seen.contains field then readFields sofar rest
      else
        let seen := field :: sofar.seen
        match field with
        | .kind =>
          let kind ← readKind content
          readFields ⟨{ sofar.record with kind := kind }, seen⟩ rest
        | .flag =>
          let flag ← readFlag content
          readFields ⟨{ sofar.record with flag := flag }, seen⟩ rest
        | .number =>
          let number ← readNumber content
          readFields ⟨{ sofar.record with number := number }, seen⟩ rest
        | .text =>
          let text ← readText content
          readFields ⟨{ sofar.record with text := text }, seen⟩ rest
        | .items =>
          let items ← readRecords content
          readFields ⟨{ sofar.record with items := items }, seen⟩ rest
        | .keys =>
          let keys ← readRecords content
          readFields ⟨{ sofar.record with keys := keys }, seen⟩ rest
  | _ => .ok sofar

end

end ValueRuntime.Codec
