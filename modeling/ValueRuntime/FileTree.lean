import ValueRuntime.Text.Bytes

/-! # Paths and file trees

    A path is the list of its components from the root down. Reading a path text removes
    empty components and `.`, and lets `..` take away the component before it, so a path is
    always absolute and clean.

    A file tree says what stands at each path.
-/

namespace ValueRuntime

/-- A clean absolute path: its components from the root down. -/
abbrev Path := List Bytes

namespace Path

/-- The byte between the components of a path text. -/
def separator : UInt8 := 0x2f

/-- The parts of a text between separators. -/
def parts : Bytes → List Bytes
  | [] => [[]]
  | b :: rest =>
    if b == separator then [] :: parts rest
    else match parts rest with
      | [] => [[b]]
      | part :: more => (b :: part) :: more

/-- The path one component further. The root is its own parent. -/
def step (path : Path) (component : Bytes) : Path :=
  if component.isEmpty || component == utf8 "." then path
  else if component == utf8 ".." then path.dropLast
  else path ++ [component]

/-- Whether a path text starts at the root. -/
def isAbsolute (text : Bytes) : Bool := text.head? == some separator

/-- **The path that a text stands for,** seen from a directory. -/
def resolve (directory : Path) (text : Bytes) : Path :=
  (parts text).foldl step (if isAbsolute text then [] else directory)

/-- The text of a path. -/
def text : Path → Bytes
  | [] => [separator]
  | components => components.flatMap (separator :: ·)

/-- The directory that holds a path. -/
def parent (path : Path) : Path := path.dropLast

/-- A path that is not its own parent lies below it. -/
theorem length_parent_lt {path : Path} (hup : path.parent ≠ path) :
    path.parent.length < path.length := by
  have hne : path ≠ [] := fun hroot => hup (by rw [hroot]; rfl)
  have hpos := List.length_pos_iff.mpr hne
  rw [parent, List.length_dropLast]
  omega

/-- **The nearest path** at or above a path with a property. The search goes up until a path is
    its own parent. -/
def nearest? (hasIt : Path → Bool) (path : Path) : Option Path :=
  if hasIt path then some path
  else if path.parent = path then none
  else nearest? hasIt path.parent
termination_by path.length
decreasing_by exact length_parent_lt ‹_›

/-- The path itself and everything above it, the nearest first, for a path given from its
    last component up. -/
def ancestorsOfReversed : List Bytes → List Path
  | [] => [[]]
  | component :: rest => (component :: rest).reverse :: ancestorsOfReversed rest

/-- The path itself and everything above it, the nearest first. -/
def ancestors (path : Path) : List Path := ancestorsOfReversed path.reverse

end Path

/-- Files with their contents, and directories. What lies above a file or directory is a
    directory too. -/
structure FileTree where
  files : List (Path × Bytes)
  directories : List Path
  deriving Repr

/-- What stands at a path. -/
inductive Presence where
  | file (content : Bytes)
  | directory
  /-- Nothing stands there. The flag says whether the directory that would hold it exists. -/
  | missing (parentExists : Bool)
  /-- The path leads through a file, or its text or one of its names is too long or has a
      zero byte. -/
  | unreachable
  deriving DecidableEq, Repr

namespace FileTree

/-- The content of the file at a path. -/
def file? (tree : FileTree) (path : Path) : Option Bytes := tree.files.lookup path

/-- Whether a path is a directory. -/
def isDirectory (tree : FileTree) (path : Path) : Bool :=
  path.isEmpty || tree.directories.any (path.isPrefixOf ·)
    || tree.files.any fun file => path.isPrefixOf file.1 && file.1 != path

/-- The longest name that a directory holds. -/
def longestName : Nat := 255

/-- The longest path text. -/
def longestPath : Nat := 4095

/-- What stands at a path below a directory. The names are looked up one after the other. -/
def presenceBelow (tree : FileTree) (directory : Path) : Path → Presence
  | [] => .directory
  | name :: rest =>
    let path := directory ++ [name]
    if longestName < name.length then .unreachable
    else match tree.file? path with
      | some content => if rest.isEmpty then .file content else .unreachable
      | none =>
        if tree.isDirectory path then tree.presenceBelow path rest else .missing rest.isEmpty

/-- **What stands at a path.** -/
def presence (tree : FileTree) (path : Path) : Presence :=
  if path.text.contains 0 || longestPath < path.text.length then .unreachable
  else tree.presenceBelow [] path

end FileTree

end ValueRuntime
