import ValueRuntime.Text.Bytes

/-! # Kinds of values

    Every value has one of seven kinds. A kind has a number, which is part of the encoded
    form of a value, and a name, which programs see as the type of a value.
-/

namespace ValueRuntime

/-- The kind of a value. -/
inductive Kind where
  | nil
  | boolean
  | number
  | string
  | list
  | object
  | function
  deriving DecidableEq, Repr

namespace Kind

/-- All kinds, each at the place of its number. -/
def all : List Kind := [.nil, .boolean, .number, .string, .list, .object, .function]

/-- The number of a kind. -/
def code : Kind → Nat
  | .nil => 0
  | .boolean => 1
  | .number => 2
  | .string => 3
  | .list => 4
  | .object => 5
  | .function => 6

/-- The kind with a given number. -/
def ofCode? (code : Nat) : Option Kind := all[code]?

/-- The name of a kind. -/
def name : Kind → String
  | .nil => "nil"
  | .boolean => "boolean"
  | .number => "number"
  | .string => "string"
  | .list => "list"
  | .object => "object"
  | .function => "function"

/-- The name for a kind number, also for one that no kind has. -/
def nameOfCode (code : Nat) : String := ((ofCode? code).map name).getD "unknown"

theorem ofCode?_code (kind : Kind) : ofCode? kind.code = some kind := by cases kind <;> rfl

end Kind

end ValueRuntime
