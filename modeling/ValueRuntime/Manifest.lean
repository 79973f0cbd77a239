import ValueRuntime.FileTree
import ValueRuntime.Text.Quoted
import ValueRuntime.Toml.Document

/-! # Project manifests

    A project keeps its settings in a file `linx.toml`. The manifest of a directory is read
    from the nearest such file at or above it.

    Reading a manifest fails for the first of these reasons that applies: there is no file
    that can be read, the file is no document with settings of the right types, it has a key
    that is no setting, or a setting has a value that is not allowed.
-/

namespace ValueRuntime

/-- Where a runtime writes. -/
inductive Channel where
  | stdout
  | stderr
  deriving DecidableEq, Repr

/-- The name of a channel. -/
def Channel.name : Channel → Bytes
  | .stdout => utf8 "stdout"
  | .stderr => utf8 "stderr"

/-- What a project is called. -/
structure ProjectSettings where
  name : Bytes
  version : Bytes
  deriving DecidableEq, Repr

/-- How the runtime is set up. -/
structure RuntimeSettings where
  name : Bytes
  debug : Bool
  output : Channel
  deriving DecidableEq, Repr

/-- The settings of a project and the directory they belong to. -/
structure Manifest where
  project : ProjectSettings
  runtime : RuntimeSettings
  /-- Where values are stored, empty for nowhere. -/
  image : Bytes
  directory : Path
  deriving DecidableEq, Repr

/-- Why a manifest cannot be read. Each reason names the file. -/
inductive ManifestError where
  | notFound (file : Path)
  | unreadable (file : Path)
  | malformed (file : Path)
  | unknownKey (file : Path) (key : Toml.Key)
  | badOutput (file : Path) (output : Bytes)
  deriving DecidableEq, Repr

/-- The message of an error. -/
def ManifestError.message : ManifestError → Bytes
  | .notFound file | .unreadable file | .malformed file => utf8 "loading " ++ file.text
  | .unknownKey file key =>
    file.text ++ utf8 ": manifest: unknown key " ++ Quoted.quote (Toml.keyText key)
  | .badOutput file output =>
    file.text ++ utf8 ": runtime.output must be stdout or stderr, got " ++ Quoted.quote output

namespace Manifest

/-- The name of the file that holds a manifest. -/
def fileName : Bytes := utf8 "linx.toml"

/-! ## Settings in a document -/

/-- A code point in lower case, as far as the names of settings need it: two letters beyond
    ASCII count as forms of `s` and `k`. -/
def lowerCase (point : Nat) : Nat :=
  if 0x41 ≤ point && point ≤ 0x5a then point + 32
  else if point == 0x17f then 0x73
  else if point == 0x212a then 0x6b
  else point

/-- Whether a name in a document is the name of a setting. Case does not matter. -/
def isNamed (setting : String) (name : Bytes) : Bool :=
  (Utf8.codePoints? name).map (·.map lowerCase) == some (setting.toList.map Char.toNat)

/-- The tables of the settings and the names in each. -/
def settings : List (String × List String) :=
  [("project", ["name", "version"]), ("runtime", ["name", "debug", "output"]),
    ("image", ["path"])]

/-- Whether a key names a setting or a table of settings. -/
def isKnown : Toml.Key → Bool
  | [table] => settings.any fun entry => isNamed entry.1 table
  | [table, name] =>
    settings.any fun entry => isNamed entry.1 table && entry.2.any (isNamed · name)
  | _ => false

/-- The first key of a document that was written and is no setting, or was lost again. -/
def unknownKey? (doc : Toml.Document) : Option Toml.Key :=
  doc.written.find? fun key => !(isKnown key && (doc.root.node? key).isSome)

/-- The entries of a table that a setting goes by, one under its exact name at the end. -/
def entriesNamed (setting : String) (table : Toml.Table) : List Toml.Node :=
  let entries := table.filter fun entry => isNamed setting entry.1
  let (exact, folded) := entries.partition fun entry => entry.1 == utf8 setting
  (folded ++ exact).map (·.2)

/-- The entries of a table of settings. -/
def tableNamed (name : String) (root : Toml.Table) : Option Toml.Table := do
  let tables ← (entriesNamed name root).mapM fun
    | .table entries => some entries
    | _ => none
  return tables.flatten

/-- The text of a setting, empty when it is absent. -/
def textNamed (name : String) (table : Toml.Table) : Option Bytes := do
  let texts ← (entriesNamed name table).mapM fun
    | .string s => some s
    | _ => none
  return texts.getLastD []

/-- The truth value of a setting, false when it is absent. -/
def flagNamed (name : String) (table : Toml.Table) : Option Bool := do
  let flags ← (entriesNamed name table).mapM fun
    | .boolean b => some b
    | _ => none
  return flags.getLastD false

/-- Settings as a document gives them, before they are checked. -/
structure Draft where
  project : ProjectSettings
  runtimeName : Bytes
  debug : Bool
  output : Bytes
  image : Bytes

/-- The settings of a document, if they have the right types. -/
def draft? (root : Toml.Table) : Option Draft := do
  let project ← tableNamed "project" root
  let runtime ← tableNamed "runtime" root
  let image ← tableNamed "image" root
  return {
    project := { name := ← textNamed "name" project, version := ← textNamed "version" project }
    runtimeName := ← textNamed "name" runtime
    debug := ← flagNamed "debug" runtime
    output := ← textNamed "output" runtime
    image := ← textNamed "path" image }

/-- The channel with a name. Without a name it is the standard output. -/
def channel? (name : Bytes) : Option Channel :=
  if name.isEmpty || name == Channel.name .stdout then some .stdout
  else if name == Channel.name .stderr then some .stderr
  else none

/-- The manifest with the content of a file. The runtime goes by the name of the project if
    it has none of its own. -/
def ofContent (directory : Path) (content : Bytes) : Except ManifestError Manifest := do
  let file := directory ++ [fileName]
  let some doc := Toml.Document.ofContent content | throw (.malformed file)
  let some draft := draft? doc.root | throw (.malformed file)
  if let some key := unknownKey? doc then throw (.unknownKey file key)
  let some output := channel? draft.output | throw (.badOutput file draft.output)
  let name := if draft.runtimeName.isEmpty then draft.project.name else draft.runtimeName
  return {
    project := draft.project
    runtime := { name := name, debug := draft.debug, output := output }
    image := draft.image
    directory := directory }

/-! ## Finding and reading -/

/-- **The manifest in a directory.** -/
def load (tree : FileTree) (directory : Path) : Except ManifestError Manifest :=
  let file := directory ++ [fileName]
  match tree.presence file with
  | .file content => ofContent directory content
  | .missing _ => .error (.notFound file)
  | .directory | .unreachable => .error (.unreadable file)

/-- Whether a directory holds a manifest file. -/
def isIn (tree : FileTree) (directory : Path) : Bool :=
  tree.presence (directory ++ [fileName]) matches .file _

/-- **The nearest directory** at or above a path that holds a manifest file. -/
def find? (tree : FileTree) (start : Path) : Option Path := start.nearest? (isIn tree)

/-- The manifest for a directory: the nearest one at or above it, if there is one. -/
def findAndLoad (tree : FileTree) (start : Path) : Except ManifestError (Option Manifest) :=
  match find? tree start with
  | none => .ok none
  | some directory => (load tree directory).map some

/-- The path of the image, empty when there is none. A relative path is seen from the
    directory of the manifest. -/
def imagePath (manifest : Manifest) : Bytes :=
  if manifest.image.isEmpty || Path.isAbsolute manifest.image then manifest.image
  else (Path.resolve manifest.directory manifest.image).text

end Manifest

end ValueRuntime
