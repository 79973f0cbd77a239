import ValueRuntime.Number.Narrow
import ValueRuntime.Text.Bytes

/-! # Data items

    The binary data items (CBOR) that encoded values consist of. An item starts with a head:
    a major type, and an argument that is a number, a length or a count. `Item.write` uses
    the shortest head and the shortest exact float. `Item.read` accepts every well-formed
    item, also of indefinite length, within the limits on nesting and on counts.
-/

namespace ValueRuntime.Codec

/-! ## Items -/

/-- A data item. -/
inductive Item where
  | unsigned (n : Nat)
  /-- The integer `-1 - n`. -/
  | negative (n : Nat)
  /-- A byte string in the pieces it was written in. -/
  | bytes (chunks : List Bytes)
  /-- A text string in the pieces it was written in. -/
  | text (chunks : List Bytes)
  | array (items : List Item)
  /-- A map: its keys and values in turn. -/
  | map (entries : List Item)
  | tag (number : Nat) (content : Item)
  /-- A simple value: false, true, null, undefined or one without a meaning. -/
  | simple (n : Nat)
  | float (x : Number)
  deriving Repr

/-- Why bytes are not an item, or an item not an encoded value. -/
inductive Malformed where
  /-- There are no bytes. -/
  | empty
  /-- The bytes end inside an item. -/
  | truncated
  /-- A head that no item has at this place. -/
  | illFormed
  | tooManyLevels
  | tooManyItems
  /-- A length or count of `2 ^ 63` or more. -/
  | lengthOverflow
  /-- Bytes follow the item. -/
  | trailing
  /-- An item of the wrong type for its place. -/
  | wrongType
  /-- A text string that is not UTF-8. -/
  | notUtf8
  /-- A tag on content that it does not allow. -/
  | badTag
  deriving DecidableEq, Repr

/-- Reads a prefix of the input and gives back the rest. -/
abbrev Reader (α : Type) := Bytes → Except Malformed (α × Bytes)

/-! ## Writing -/

/-- The shortest head for a major type and an argument. -/
def writeHead (major argument : Nat) : Bytes :=
  let lead (info : Nat) : UInt8 := (major * 32 + info).toUInt8
  if argument < 24 then [lead argument]
  else if argument < 0x100 then lead 24 :: Bytes.bigEndian 1 argument
  else if argument < 0x10000 then lead 25 :: Bytes.bigEndian 2 argument
  else if argument < 0x100000000 then lead 26 :: Bytes.bigEndian 4 argument
  else lead 27 :: Bytes.bigEndian 8 argument

/-- The shortest float that holds a number exactly. -/
def writeFloat (x : Number) : Bytes :=
  if x.isNaN then 0xf9 :: Bytes.bigEndian 2 0x7e00
  else match Number.Format.half.narrow? x with
    | some bits => 0xf9 :: Bytes.bigEndian 2 bits
    | none => match Number.Format.single.narrow? x with
      | some bits => 0xfa :: Bytes.bigEndian 4 bits
      | none => 0xfb :: Bytes.bigEndian 8 x.toBits

mutual

/-- **The bytes** of an item. Strings are written in one piece. -/
def Item.write : Item → Bytes
  | .unsigned n => writeHead 0 n
  | .negative n => writeHead 1 n
  | .bytes chunks => writeHead 2 chunks.flatten.length ++ chunks.flatten
  | .text chunks => writeHead 3 chunks.flatten.length ++ chunks.flatten
  | .array items => writeHead 4 items.length ++ writeAll items
  | .map entries => writeHead 5 (entries.length / 2) ++ writeAll entries
  | .tag number content => writeHead 6 number ++ content.write
  | .simple n => writeHead 7 n
  | .float x => writeFloat x

/-- The bytes of several items. -/
def writeAll : List Item → Bytes
  | [] => []
  | item :: rest => item.write ++ writeAll rest

end

/-! ## Reading heads -/

/-- The argument of a head. -/
inductive Argument where
  | definite (n : Nat)
  | indefinite
  deriving DecidableEq, Repr

/-- The head of an item: its major type, the lower five bits of its first byte, and its
    argument. -/
structure Head where
  major : Nat
  info : Nat
  argument : Argument
  deriving Repr

/-- Takes a fixed number of bytes. -/
def take (count : Nat) : Reader Bytes := fun input =>
  let taken := input.take count
  if taken.length = count then .ok (taken, input.drop count) else .error .truncated

/-- The number of argument bytes that the lower five bits of a head announce. -/
def argumentWidth? : (info : Nat) → Option Nat
  | 24 => some 1
  | 25 => some 2
  | 26 => some 4
  | 27 => some 8
  | _ => none

/-- The major type of the item that starts with a byte. -/
def majorOf (lead : UInt8) : Nat := lead.toNat / 32

/-- Reads a head. Only strings, arrays and maps have an indefinite length, and a simple
    value below 32 stands in the first byte. -/
def readHead : Reader Head
  | [] => .error .truncated
  | lead :: rest =>
    let major := majorOf lead
    let info := lead.toNat % 32
    if info < 24 then .ok (⟨major, info, .definite info⟩, rest)
    else match argumentWidth? info with
      | some width => do
        let (digits, rest) ← take width rest
        let n := digits.toNat
        if major == 7 && info == 24 && n < 32 then throw .illFormed
        return (⟨major, info, .definite n⟩, rest)
      | none =>
        if info == 31 && 2 ≤ major && major ≤ 5 then .ok (⟨major, info, .indefinite⟩, rest)
        else .error .illFormed

/-! ## Reading items -/

/-- The most levels of nesting that are read. -/
def maxLevels : Nat := 512

/-- The most items of an array, and the most pairs of a map. -/
def maxCount : Nat := 131072

/-- Lengths and counts stay below this. -/
def lengthLimit : Nat := 0x8000000000000000

/-- The byte that ends an item of indefinite length. -/
def breakByte : UInt8 := 0xff

/-- Reads the bytes of a string of known length. -/
def readString (length : Nat) : Reader Bytes := fun input =>
  if lengthLimit ≤ length then .error .lengthOverflow else take length input

/-- Reads the pieces of a string of indefinite length. Each piece has the string's own type
    and a known length. -/
def readChunks (major : Nat) : (fuel : Nat) → Reader (List Bytes)
  | _, [] => .error .truncated
  | 0, _ => .error .truncated
  | fuel + 1, lead :: rest =>
    if lead == breakByte then .ok ([], rest)
    else if majorOf lead != major then .error .illFormed
    else do
      let (head, input) ← readHead (lead :: rest)
      match head.argument with
      | .indefinite => throw .illFormed
      | .definite length =>
        let (chunk, input) ← readString length input
        let (more, input) ← readChunks major fuel input
        return (chunk :: more, input)

/-- Reads a fixed number of items. -/
def readMany (read : Reader Item) : (count : Nat) → Reader (List Item)
  | 0, input => .ok ([], input)
  | count + 1, input => do
    let (item, input) ← read input
    let (more, input) ← readMany read count input
    return (item :: more, input)

/-- Reads items until a break. The item that goes beyond the room is still read before it
    is refused. -/
def readUntilBreak (read : Reader Item) : (room : Nat) → Reader (List Item)
  | _, [] => .error .truncated
  | room, lead :: rest =>
    if lead == breakByte then .ok ([], rest)
    else do
      let (item, input) ← read (lead :: rest)
      match room with
      | 0 => throw .tooManyItems
      | room + 1 =>
        let (more, input) ← readUntilBreak read room input
        return (item :: more, input)

/-- The item for a head of major type 7. -/
def simpleOrFloat (info n : Nat) : Item :=
  match info with
  | 25 => .float (Number.Format.half.widen n)
  | 26 => .float (Number.Format.single.widen n)
  | 27 => .float (Number.ofBits n)
  | _ => .simple n

/-- Refuses a count that is too large to be read. -/
def checkCount (count : Nat) : Except Malformed Unit :=
  if lengthLimit ≤ count then .error .lengthOverflow
  else if maxCount < count then .error .tooManyItems
  else .ok ()

/-- Reads the contents of an array or a map after its head. -/
def readContents (read : Reader Item) (head : Head) : Reader Item := fun input => do
  let isMap := head.major == 5
  match head.argument with
  | .definite count =>
    checkCount count
    let (items, input) ← readMany read (if isMap then 2 * count else count) input
    return (if isMap then .map items else .array items, input)
  | .indefinite =>
    let (items, input) ← readUntilBreak read (if isMap then 2 * maxCount + 1 else maxCount) input
    if isMap && items.length % 2 == 1 then throw .illFormed
    return (if isMap then .map items else .array items, input)

/-- Reads one item with at most `levels` further levels of nesting. An array or a map opens
    a level, and so does a tag that directly follows a tag. Every head takes at least one
    byte, so the length of the input is enough fuel. -/
def readItem : (fuel levels : Nat) → Reader Item
  | 0, _, _ => .error .truncated
  | fuel + 1, levels, input => do
    let (head, rest) ← readHead input
    match head.major, head.argument with
    | 0, .definite n => return (.unsigned n, rest)
    | 1, .definite n => return (.negative n, rest)
    | 2, .definite n =>
      let (s, rest) ← readString n rest
      return (.bytes [s], rest)
    | 3, .definite n =>
      let (s, rest) ← readString n rest
      return (.text [s], rest)
    | 2, .indefinite =>
      let (chunks, rest) ← readChunks 2 fuel rest
      return (.bytes chunks, rest)
    | 3, .indefinite =>
      let (chunks, rest) ← readChunks 3 fuel rest
      return (.text chunks, rest)
    | 6, .definite number =>
      match rest with
      | [] => throw .truncated
      | lead :: _ =>
        if majorOf lead == 6 then
          let _ ← readHead rest
          if levels == 0 then throw .tooManyLevels
          let (content, rest) ← readItem fuel (levels - 1) rest
          return (.tag number content, rest)
        else
          let (content, rest) ← readItem fuel levels rest
          return (.tag number content, rest)
    | 7, .definite n => return (simpleOrFloat head.info n, rest)
    | _, _ =>
      if levels == 0 then throw .tooManyLevels
      readContents (readItem fuel (levels - 1)) head rest

/-- **Reads** the one item that the input consists of. -/
def Item.read (input : Bytes) : Except Malformed Item :=
  if input.isEmpty then .error .empty
  else do
    let (item, rest) ← readItem input.length maxLevels input
    if !rest.isEmpty then throw .trailing
    return item

end ValueRuntime.Codec
