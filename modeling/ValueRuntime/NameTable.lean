import ValueRuntime.Text.Bytes

/-! # Tables keyed by name

    A table holds at most one entry for a name and keeps its entries in the byte-wise order
    of their names.
-/

namespace ValueRuntime

/-- Entries in the order of their names. -/
abbrev NameTable (α : Type) := List (Bytes × α)

namespace NameTable

variable {α : Type}

/-- The entry for a name. -/
def find? (table : NameTable α) (name : Bytes) : Option α :=
  (List.find? (fun entry => entry.1 == name) table).map (·.2)

/-- The table with an entry for a name, in place of an older one. -/
def insert (name : Bytes) (a : α) : NameTable α → NameTable α
  | [] => [(name, a)]
  | entry :: rest =>
    if entry.1 == name then (name, a) :: rest
    else if Bytes.less name entry.1 then (name, a) :: entry :: rest
    else entry :: insert name a rest

/-- The table without an entry for a name. -/
def erase (table : NameTable α) (name : Bytes) : NameTable α :=
  List.filter (fun entry => entry.1 != name) table

/-- The names in order. -/
def names (table : NameTable α) : List Bytes := table.map (·.1)

end NameTable

end ValueRuntime
