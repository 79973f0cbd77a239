import ValueRuntime.Image.Basic
import ValueRuntime.Image.Location
import ValueRuntime.Number.Numeral

/-! # Image files

    An image file starts with a mark and holds the rows one after the other. Every field of
    a row is written as its length in eight bytes and its bytes; a time is a decimal numeral.
    A file that is empty, or as good as empty with one byte, is an image without rows.
-/

namespace ValueRuntime

/-! ## Times as text -/

/-- The time that a text stands for: that of a numeral for an integer. -/
def SavedAt.ofText (s : Bytes) : SavedAt :=
  match Numeral.ofText? s >>= Numeral.integer? with
  | some n => .time n
  | none => .text s

/-- The text of a time. -/
def SavedAt.toText : SavedAt → Bytes
  | .time n => (if n < 0 then utf8 "-" else []) ++ Bytes.decimal n.natAbs
  | .text s => s

namespace Image

/-! ## Rows as bytes -/

/-- The mark at the start of an image file. -/
def fileMark : Bytes := utf8 "value image 1\n"

/-- A field: its length and its bytes. -/
def fieldBytes (field : Bytes) : Bytes := Bytes.bigEndian 8 field.length ++ field

/-- Reads a field. -/
def field? (bytes : Bytes) : Option (Bytes × Bytes) :=
  let rest := bytes.drop 8
  let length := Bytes.toNat (bytes.take 8)
  if bytes.length < 8 || rest.length < length then none
  else some (rest.take length, rest.drop length)

/-- The bytes of a row. -/
def rowBytes (entry : Bytes × Row) : Bytes :=
  [entry.1, entry.2.data, entry.2.runtime, entry.2.savedAt.toText].flatMap fieldBytes

/-- Reads rows up to the end. `fuel` bounds their number. -/
def rowsOfBytes? : (fuel : Nat) → Bytes → Option (NameTable Row)
  | _, [] => some []
  | 0, _ => none
  | fuel + 1, bytes => do
    let (name, bytes) ← field? bytes
    let (data, bytes) ← field? bytes
    let (runtime, bytes) ← field? bytes
    let (saved, bytes) ← field? bytes
    let rows ← rowsOfBytes? fuel bytes
    return rows.insert name ⟨data, runtime, .ofText saved⟩

/-- The content of the file of an image. -/
def fileContent (image : Image) : Bytes := fileMark ++ (image.rows?.getD []).flatMap rowBytes

/-- The rows of a file, if it is an image. -/
def rowsOfFile? (content : Bytes) : Option (NameTable Row) :=
  if content.length < 2 then some []
  else if fileMark.isPrefixOf content then
    rowsOfBytes? content.length (content.drop fileMark.length)
  else none

/-! ## Opening -/

/-- Why an image cannot be opened. -/
inductive OpenError where
  /-- The path or its settings are wrong, or there is no file and none can be made. -/
  | noFile
  /-- The file is no image, or cannot be written. -/
  | noTable
  deriving DecidableEq, Repr

/-- The message of an error. -/
def OpenError.message : OpenError → Bytes
  | .noFile => utf8 "setting busy timeout"
  | .noTable => utf8 "creating table"

/-- What comes of opening an image. -/
structure Opening where
  image : Except OpenError Image
  /-- The file that was opened, also if the image was not. -/
  file : Option Path
  /-- Whether the file was missing before. -/
  isNew : Bool

/-- The opening that fails before there is a file. -/
def Opening.failed : Opening := ⟨.error .noFile, none, false⟩

/-- The image in a file with a content, or in memory. `hasRoom` says whether there is room to
    write it. -/
def ofContent (path : Bytes) (location : Location) (isKept hasRoom : Bool) (content : Bytes) :
    Except OpenError Image :=
  if !location.settings.areValid then .error .noFile
  else if location.isReadOnly || !hasRoom then .error .noTable
  else match rowsOfFile? content with
    | some rows => .ok ⟨path, isKept, location.settings.areExclusive, true, some rows⟩
    | none => .error .noTable

/-- Opens the image in a file. -/
def openFile (tree : FileTree) (directory : Path) (path : Bytes) (location : Location) :
    Option Opening := do
  let file ← location.file? tree directory
  if !location.hasModel tree directory then none
  let content ← location.content? tree file
  return {
    image := ofContent path location true (Location.hasRoom tree file) content
    file := some file
    isNew := (tree.file? file).isNone }

/-- **Opens the image at a path,** or a new one where there is no file. A relative path is
    seen from a directory. -/
def openAt (tree : FileTree) (directory : Path) (path : Bytes) : Opening :=
  match Location.ofText? path with
  | none => .failed
  | some location =>
    if !location.isInMemory then (openFile tree directory path location).getD .failed
    else if !location.fitsInMemory then .failed
    else ⟨ofContent path location false true [], none, false⟩

end Image

end ValueRuntime
