import ValueRuntime.Operator

/-! # Expressions

    The code of functions and programs. An expression is evaluated in a frame, which has
    captured cells, arguments, and names for local cells, held values and iterators.
-/

namespace ValueRuntime

/-- A reference to a cell. -/
inductive CellRef where
  /-- A local cell. There may be none of that name. -/
  | ofLocal (name : Bytes)
  /-- A captured cell, by its position. There may be none there. -/
  | ofCapture (index : Int)
  /-- The cell of a global, which is made when it is first referred to. -/
  | ofGlobal (name : Bytes)
  /-- No cell: it reads as nil and drops what is written. -/
  | absent
  deriving DecidableEq, Repr

/-- What a primitive does to its arguments. Missing arguments are nil. -/
inductive Primitive where
  -- The operators on contents.
  | operator (op : Operator)
  | unary (op : UnaryOperator)
  -- Access to containers.
  | dot
  | subscript
  | setSubscript
  -- What a value is and holds.
  | copy
  | isTruthy
  | isNil
  | asBoolean
  | asNumber
  | asString
  | hasPayload
  | wrapList
  | wrapObject
  | wrapFunction
  | roundtrip
  -- Lists.
  | newList
  | bareList
  | listLength
  | listCapacity
  | listValues
  | append
  | listItem
  | replaceItem
  | range
  -- Objects.
  | newObject
  | bareObject
  | objectOf
  | objectLength
  | objectKeys
  | keys
  | lookup
  | hasKey
  | store
  -- Functions.
  | bareFunction
  | captureCount
  -- The runtime.
  | print
  | builtin
  | builtinNames
  | globalNames
  | setGlobal
  | lookupGlobal
  | hasGlobal
  | stats
  | runtimeName
  deriving DecidableEq, Repr

/-- What calls a function. -/
inductive Calling where
  /-- Calls the first argument with the others. -/
  | function
  /-- Calls the second argument with each position and item of the list that is the first,
      until the result is not truthy. -/
  | eachItem
  /-- Calls the second argument with each key and value of the object that is the first,
      until the result is not truthy. -/
  | eachPair
  deriving DecidableEq, Repr

/-- How a value is wrapped in a container. -/
inductive Wrapping where
  /-- As the one item of a list. -/
  | item
  /-- As the value of the key `k`. -/
  | member
  /-- As a key with the value nil. -/
  | key
  deriving DecidableEq, Repr

/-- An expression. -/
inductive Expr where
  | nil
  | boolean (b : Bool)
  | number (x : Number)
  | string (s : Bytes)
  | list (items : List Expr)
  | object (entries : List (Expr × Expr))
  /-- A new function. Without a body it does nothing when it is called. -/
  | function (body : Option (List Expr)) (captured : List CellRef)
  /-- A value wrapped in containers a number of times. -/
  | nest (count : Nat) (wrapping : Wrapping) (e : Expr)
  /-- A new local cell. -/
  | bind (name : Bytes) (e : Expr)
  | get (cell : CellRef)
  /-- Writes to a cell and reads it back. -/
  | assign (cell : CellRef) (e : Expr)
  /-- Writes to a cell. -/
  | copyTo (cell : CellRef) (e : Expr)
  | argument (index : Int)
  /-- Keeps a value under a name, without a copy. -/
  | hold (name : Bytes) (e : Expr)
  | held (name : Bytes)
  | ifThenElse (condition yes no : Expr)
  | seq (es : List Expr)
  | times (count : Nat) (e : Expr)
  /-- Begins an iteration over a value. -/
  | iterate (name : Bytes) (e : Expr)
  | hasNext (name : Bytes)
  | next (name : Bytes)
  | apply (primitive : Primitive) (args : List Expr)
  | call (calling : Calling) (args : List Expr)
  deriving Repr

instance : Inhabited Expr := ⟨.nil⟩

end ValueRuntime
