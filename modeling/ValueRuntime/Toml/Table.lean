import ValueRuntime.Toml.Statement

/-! # TOML tables

    A table gives names a meaning. Tables within tables make a tree, and a key is a way into
    that tree, one name at a time.

    An array of tables is one meaning. A key that passes through it goes on in the last
    table of the array.
-/

namespace ValueRuntime.Toml

/-- Entries with the value of a name replaced. -/
def replaceEntry {α : Type} (name : Bytes) (value : α) : List (Bytes × α) → List (Bytes × α)
  | [] => []
  | entry :: rest =>
    if entry.1 == name then (name, value) :: rest else entry :: replaceEntry name value rest

/-- Entries with a name given a value: in its place, or in front if the name is new. -/
def setEntry {α : Type} (name : Bytes) (value : α) (entries : List (Bytes × α)) :
    List (Bytes × α) :=
  if entries.any (·.1 == name) then replaceEntry name value entries else (name, value) :: entries

/-- What a name stands for. -/
inductive Node where
  | string (s : Bytes)
  | boolean (b : Bool)
  | scalar
  | array
  | table (entries : List (Bytes × Node))
  /-- An array of tables. Only its last table can still be reached. -/
  | tables (last : List (Bytes × Node))
  deriving Repr

/-- Names and what they stand for, the latest first. -/
abbrev Table := List (Bytes × Node)

namespace Table

/-- The table that a key passes through at a node. -/
def ofNode? : Node → Option Table
  | .table entries => some entries
  | .tables last => some last
  | _ => none

/-- The node with the table that a key passes through replaced. -/
def intoNode (table : Table) : Node → Node
  | .table _ => .table table
  | .tables _ => .tables table
  | other => other

/-- The table at a key. -/
def at? : Key → Table → Option Table
  | [], table => some table
  | name :: rest, table => do at? rest (← ofNode? (← table.lookup name))

/-- Changes the table at a key. Without a table there nothing changes. -/
def modifyAt (change : Table → Table) : Key → Table → Table
  | [], table => change table
  | name :: rest, table =>
    match table.lookup name with
    | none => table
    | some node =>
      match ofNode? node with
      | none => table
      | some inner => setEntry name (intoNode (modifyAt change rest inner) node) table

/-- What a key stands for. -/
def node? (key : Key) (table : Table) : Option Node :=
  match key.getLast? with
  | none => some (.table table)
  | some name => do List.lookup name (← table.at? key.dropLast)

/-- How many names of a key, from the first on, lead from table to table. -/
def reach : Key → Table → Nat
  | [], _ => 0
  | name :: rest, table =>
    match table.lookup name >>= ofNode? with
    | none => 0
    | some inner => reach rest inner + 1

/-- **Makes the tables that a key passes through,** as far as they are missing. It fails if
    a name on the way stands for something else. -/
def extend : Key → Table → Option Table
  | [], table => some table
  | name :: rest, table =>
    match table.lookup name with
    | none => do return setEntry name (.table (← extend rest [])) table
    | some node => do
      return setEntry name (intoNode (← extend rest (← ofNode? node)) node) table

/-- Puts a node at a key in place of what stands there, and makes the tables on the way as
    far as they are missing. -/
def place (key : Key) (node : Node) (table : Table) : Option Table :=
  match key.getLast? with
  | none => some table
  | some name => do
    return modifyAt (setEntry name node) key.dropLast (← table.extend key.dropLast)

end Table

end ValueRuntime.Toml
