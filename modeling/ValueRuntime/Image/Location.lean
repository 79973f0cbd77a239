import ValueRuntime.FileTree
import ValueRuntime.Image.Settings

/-! # Where an image is kept

    The path of an image is the name of a file, which may be followed by a question mark and
    settings. A path that starts with `file:` is a URI: an authority, a name with escapes,
    options and a fragment. Its options are read as settings, too.

    An image may be kept in a file, or in memory only. In memory are the images with the name
    `:memory:` or without a name, and those for which an option asks for it.
-/

namespace ValueRuntime

/-- What an image may do with its file. -/
inductive Access where
  /-- Read a file that exists. -/
  | readOnly
  /-- Read and write a file that exists. -/
  | readWrite
  /-- Read and write a file, which is made when it is missing. -/
  | create
  /-- Have no file. -/
  | memory
  deriving DecidableEq, Repr

namespace Access

/-- The access that a mode stands for. -/
def ofMode? (mode : Bytes) : Option Access :=
  [("ro", readOnly), ("rw", readWrite), ("rwc", create), ("memory", memory)].findSome?
    fun (name, access) => if utf8 name == mode then some access else none

/-- The rank of an access among those that can still be asked for. -/
def rank : Access → Nat
  | .readOnly => 1
  | .readWrite => 2
  | .create => 6
  | .memory => 128

/-- The access after another is asked for, which must not rank higher. Memory can always be
    asked for. -/
def restrict? (old new : Access) : Option Access :=
  if new = .memory || new.rank ≤ old.rank then some new else none

end Access

/-- What an image path says. -/
structure Location where
  /-- The name of the file. -/
  name : Bytes
  access : Access
  /-- Whether the image is kept in memory although it has a name. -/
  isVirtual : Bool
  /-- The options of a URI. -/
  options : Settings
  settings : Settings
  deriving DecidableEq, Repr

namespace Location

/-! ## Reading paths -/

/-- The start of a URI. -/
def scheme : Bytes := utf8 "file:"

/-- The text before the question mark and the text after it. A question mark at the very
    start is part of the name. -/
def split (path : Bytes) : Bytes × Bytes :=
  if path.head? == some 0x3f then (path, []) else Percent.cut 0x3f path

/-- Whether the storage with a name keeps files in memory, if there is such a storage. -/
def isVirtual? (storage : Bytes) : Option Bool :=
  if ["unix", "unix-none", "unix-dotfile", "unix-excl"].any (utf8 · == storage) then some false
  else if storage == utf8 "memdb" then some true
  else none

/-- A URI without scheme and authority. The authority may be empty or the own machine. -/
def withoutAuthority? (rest : Bytes) : Option Bytes :=
  if (utf8 "//").isPrefixOf rest then
    let (authority, path) := (rest.drop 2).span (· != Path.separator)
    if authority.isEmpty || authority == utf8 "localhost" then some path else none
  else some rest

/-- The options of a URI. One without a name is passed over. -/
def uriOptions (s : Bytes) : Settings :=
  let options := (Percent.options s).map fun (name, value) =>
    (Percent.lenient name, Percent.lenient value)
  options.filter fun option => !option.1.isEmpty

/-- Takes an option into account that restricts the access. -/
def restrictBy (access : Access) (option : Bytes × Bytes) : Option Access :=
  if option.1 == utf8 "mode" then do access.restrict? (← Access.ofMode? option.2)
  else if option.1 == utf8 "cache" then
    if ["shared", "private"].any (utf8 · == option.2) then some access else none
  else some access

/-- The location that a URI stands for. `storage` is the storage it has unless it says
    otherwise, empty for the usual one. -/
def ofUri? (storage : Bytes) (settings : Settings) (rest : Bytes) : Option Location := do
  let body := (← withoutAuthority? rest).takeWhile (· != 0x23)
  let (name, query) := Percent.cut 0x3f body
  let options := uriOptions query
  let isVirtual ← match (Settings.values "vfs" options).getLast? with
    | some chosen => isVirtual? chosen
    | none => if storage.isEmpty then some false else isVirtual? storage
  let access ← options.foldlM restrictBy .create
  return ⟨Percent.lenient name, access, isVirtual, options, settings⟩

/-- **The location that an image path stands for.** Names end at a zero byte. -/
def ofText? (path : Bytes) : Option Location := do
  let (name, query) := split path
  let settings ← Settings.ofText? query
  let storage ← settings.storage?
  let untilZero (s : Bytes) : Bytes := s.takeWhile (· != 0)
  if scheme.isPrefixOf path then
    ofUri? storage settings (untilZero (path.drop scheme.length))
  else
    let isVirtual ← if storage.isEmpty then some false else isVirtual? storage
    return ⟨untilZero name, .create, isVirtual, [], settings⟩

/-! ## Properties -/

/-- Whether the image has no name that a storage knows. -/
def isNameless (location : Location) : Bool :=
  location.name.isEmpty || location.name == utf8 ":memory:" || location.access = .memory

/-- Whether the image is kept in memory only. -/
def isInMemory (location : Location) : Bool := location.isNameless || location.isVirtual

/-- Whether the image cannot be written. -/
def isReadOnly (location : Location) : Bool :=
  location.access = .readOnly || location.settings.forbidWriting
    || (!location.isNameless && isOn (location.options.value "immutable"))

/-- The longest name of an image in a virtual storage. -/
def longestVirtualName : Nat := 1016

/-- Whether the name can be used in a virtual storage. -/
def fitsInMemory (location : Location) : Bool :=
  location.isNameless || location.name.length ≤ longestVirtualName

/-! ## Files -/

/-- The longest path text of a file that holds an image. Names of eight more bytes are used
    beside it. -/
def longestFilePath : Nat := 504

/-- Follows the parts of a path text from a directory. What stands on the way is looked at
    even if the text leaves it again, and must be reachable. -/
def follow? (tree : FileTree) (path : Path) : List Bytes → Option Path
  | [] => some path
  | part :: rest =>
    let next := path.step part
    let goesDown := path.length < next.length
    if goesDown && (longestFilePath + 7 < next.text.length || tree.presence next = .unreachable)
    then none
    else follow? tree next rest

/-- **The file of an image,** seen from a directory. -/
def file? (location : Location) (tree : FileTree) (directory : Path) : Option Path := do
  let start := if Path.isAbsolute location.name then [] else directory
  let file ← follow? tree start (Path.parts location.name)
  if file.text.length ≤ longestFilePath then return file else none

/-- Whether the file that an option names to take permissions from is there. -/
def hasModel (location : Location) (tree : FileTree) (directory : Path) : Bool :=
  match location.options.lookup (utf8 "modeof") with
  | none => true
  | some name =>
    match tree.presence (Path.resolve directory name) with
    | .file _ | .directory => !name.isEmpty
    | .missing _ | .unreachable => false

/-- What the file of an image holds once it is open, if it can be opened. -/
def content? (location : Location) (tree : FileTree) (file : Path) : Option Bytes :=
  match tree.presence file with
  | .file content => some content
  | .missing parentExists => if parentExists && location.access = .create then some [] else none
  | .directory | .unreachable => none

/-- The file beside another whose name goes on. -/
def beside (file : Path) (suffix : String) : Path :=
  file.parent ++ [(file.getLastD []) ++ utf8 suffix]

/-- Whether the files that are needed to write an image can be made beside its file. -/
def hasRoom (tree : FileTree) (file : Path) : Bool :=
  (match tree.presence (beside file "-journal") with
    | .file _ | .missing _ => true
    | .directory | .unreachable => false)
  && tree.presence (beside file "-wal") != .directory

/-- All paths that matter for opening an image. -/
def lookedAt (location : Location) (directory : Path) : List Path :=
  let start := if Path.isAbsolute location.name then [] else directory
  let parts := Path.parts location.name
  let visited := (List.range (parts.length + 1)).map fun n => (parts.take n).foldl Path.step start
  let file := parts.foldl Path.step start
  let model := (location.options.lookup (utf8 "modeof")).map (Path.resolve directory)
  visited ++ [beside file "-journal", beside file "-wal"] ++ model.toList

end Location

end ValueRuntime
