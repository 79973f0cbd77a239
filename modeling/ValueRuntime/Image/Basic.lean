import ValueRuntime.Codec.Decode
import ValueRuntime.NameTable

/-! # Images

    An image keeps encoded values under names, each with the runtime it came from and the
    time it was stored. An image can be closed, and its table of rows can get lost; then its
    operations fail and say what was attempted.
-/

namespace ValueRuntime

/-- When a row was stored: in nanoseconds, or some text that is no time. -/
inductive SavedAt where
  | time (nanoseconds : Int)
  | text (s : Bytes)
  deriving DecidableEq, Repr

/-- A stored value. -/
structure Row where
  data : Bytes
  runtime : Bytes
  savedAt : SavedAt
  deriving DecidableEq, Repr

/-- A table of values that may be closed, and may have lost its rows. -/
structure Image where
  /-- The path the image was opened with. -/
  path : Bytes
  /-- Whether the rows outlive the closing of the image. -/
  isKept : Bool
  /-- Whether nobody else can change the rows while the image is open. -/
  isExclusive : Bool
  isOpen : Bool
  rows? : Option (NameTable Row)
  deriving DecidableEq, Repr

/-- What is known of a row without decoding it. -/
structure RowSummary where
  name : Bytes
  runtime : Bytes
  savedAt : Int
  /-- The number of bytes of the encoded value. -/
  size : Nat
  deriving DecidableEq, Repr

/-! ## Errors -/

/-- What an operation on an image attempts. -/
inductive Attempt where
  | saving (name : Bytes)
  | querying (name : Bytes)
  | deleting (name : Bytes)
  | listing
  | beginningSave
  deriving DecidableEq, Repr

/-- The message part of an attempt. -/
def Attempt.message : Attempt → Bytes
  | .saving name => utf8 "saving " ++ name
  | .querying name => utf8 "querying " ++ name
  | .deleting name => utf8 "deleting " ++ name
  | .listing => utf8 "listing image"
  | .beginningSave => utf8 "beginning save"

/-- Why an operation on an image failed. -/
inductive ImageError where
  /-- The value to store cannot be read. -/
  | fault (cause : Fault)
  | encoding (name : Bytes) (inner : Codec.Failure)
  | decoding (name : Bytes) (inner : Codec.DecodeError)
  | notFound (name : Bytes)
  | closed (attempt : Attempt)
  | noRows (attempt : Attempt)
  /-- A row has no time. -/
  | badTime
  deriving DecidableEq, Repr

/-- The message of an error. -/
def ImageError.message : ImageError → Bytes
  | .fault cause => cause.message
  | .encoding name inner => utf8 "encoding " ++ name ++ utf8 ": " ++ inner.message
  | .decoding name (.failure inner) => utf8 "decoding " ++ name ++ utf8 ": " ++ inner.message
  | .decoding name (.malformed _) => utf8 "decoding " ++ name
  | .notFound name => utf8 "image: value not found: " ++ name
  | .closed attempt => attempt.message ++ utf8 ": sql: database is closed"
  | .noRows attempt => attempt.message
  | .badTime => utf8 "scanning image row"

namespace Image

/-! ## Opening and closing -/

/-- A new image. -/
def new (path : Bytes) : Image := ⟨path, true, false, true, some []⟩

/-- The image after closing. Rows that are not kept are gone. -/
def close (image : Image) : Image :=
  { image with isOpen := false, rows? := if image.isKept then image.rows? else none }

/-- The image after closing and opening again. Lost rows stay lost, but the table is back. -/
def reopen (image : Image) : Image :=
  { image with isOpen := true, rows? := some (image.close.rows?.getD []) }

/-- The rows as others can see and change them. -/
def rowsForOthers? (image : Image) : Option (NameTable Row) :=
  if image.isOpen && image.isExclusive then none else image.rows?

/-- The image after others removed its table, if they can. -/
def loseRows? (image : Image) : Option Image := do
  let _ ← image.rowsForOthers?
  return { image with rows? := none }

/-- The rows of an open image. -/
def rows (image : Image) (attempt : Attempt) : Except ImageError (NameTable Row) :=
  if !image.isOpen then .error (.closed attempt)
  else match image.rows? with
    | none => .error (.noRows attempt)
    | some rows => .ok rows

/-- The image with other rows. -/
def withRows (image : Image) (rows : NameTable Row) : Image := { image with rows? := some rows }

/-! ## Values -/

/-- The value of a row. -/
def decodeRow (name : Bytes) (row : Row) : Except ImageError Datum :=
  match Codec.decode row.data with
  | .ok value => .ok value
  | .error inner => .error (.decoding name inner)

/-- **The value stored under a name.** -/
def get (image : Image) (name : Bytes) : Except ImageError Datum := do
  let rows ← image.rows (.querying name)
  match rows.find? name with
  | none => throw (.notFound name)
  | some row => decodeRow name row

/-! ## Listing -/

/-- The summary of a row, which needs a time. -/
def summary (entry : Bytes × Row) : Except ImageError RowSummary :=
  match entry.2.savedAt with
  | .time nanoseconds => .ok ⟨entry.1, entry.2.runtime, nanoseconds, entry.2.data.length⟩
  | .text _ => .error .badTime

/-- **All rows in the order of their names.** -/
def entries (image : Image) : Except ImageError (List RowSummary) := do
  (← image.rows .listing).mapM summary

/-- The stored names in order. -/
def names (image : Image) : Except ImageError (List Bytes) := do
  return (← image.entries).map (·.name)

/-- **All stored values** in the order of their names. -/
def values (image : Image) : Except ImageError (List (Bytes × Datum)) := do
  (← image.names).mapM fun name => do return (name, ← image.get name)

end Image

end ValueRuntime
