import ValueRuntime.Codec.Encode
import ValueRuntime.Image.Basic

/-! # Statements that change images

    Statements go over a connection to an image. A statement changes the rows at once, unless a
    transaction is open. Then it changes the rows of the transaction, and the image gets them when
    the transaction is committed.

    A statement that fails leaves the connection as it is at that moment. What was done before in
    the same transaction is still there, until the transaction is rolled back.
-/

namespace ValueRuntime

/-- An image with the transaction that is open on it, if there is one. -/
structure Connection where
  /-- The image as it was committed. -/
  image : Image
  /-- The image as the transaction has made it. -/
  pending? : Option Image
  deriving DecidableEq, Repr

/-- A connection without a transaction. -/
def Image.connect (image : Image) : Connection := ⟨image, none⟩

/-- **A statement:** it gives a result or fails, and leaves a connection in both cases. -/
abbrev Statement (α : Type) := ExceptT ImageError (StateM Connection) α

namespace Statement

/-! ## Transactions -/

/-- Begins a transaction with the rows as they are committed. -/
def start : Statement Unit := do
  let c ← get
  if c.image.isOpen then set { c with pending? := some c.image }
  else throw (.closed .beginningSave)

/-- Gives the image the rows of the transaction, and ends it. -/
def commit : Statement Unit := modify fun c => ⟨c.pending?.getD c.image, none⟩

/-- Gives up the transaction, if there is one. -/
def rollBack : Statement Unit := modify fun c => { c with pending? := none }

/-- **All or nothing:** what is done in a transaction is committed if nothing fails, and rolled
    back if something does. -/
def atomically {α : Type} (statements : Statement α) : Statement α := do
  start
  try
    let result ← statements
    commit
    pure result
  finally
    rollBack

/-! ## Rows -/

/-- Changes the rows, those of the transaction if there is one. -/
def changeRows (attempt : Attempt) (change : NameTable Row → NameTable Row) : Statement Unit := do
  let c ← get
  match c.pending? with
  | some image =>
    let rows ← image.rows attempt
    set { c with pending? := some (image.withRows (change rows)) }
  | none =>
    let rows ← c.image.rows attempt
    set { c with image := c.image.withRows (change rows) }

/-- Stores an encoded value under a name, in place of an older one. -/
def insert (name data runtime : Bytes) (now : Int) : Statement Unit :=
  changeRows (.saving name) (·.insert name ⟨data, runtime, .time now⟩)

/-- **Stores a value** under a name. -/
def put (name : Bytes) (value : Datum) (runtime : Bytes) (now : Int) : Statement Unit :=
  match Codec.encode value with
  | .error (.fault cause) => throw (.fault cause)
  | .error (.failure inner) => throw (.encoding name inner)
  | .ok data => insert name data runtime now

/-- **Removes a name,** which may be missing. -/
def delete (name : Bytes) : Statement Unit := changeRows (.deleting name) (·.erase name)

/-- Stores values one after the other, and counts them. Values that hold a function are passed
    over; any other value that cannot be encoded is an error. -/
def putAll (runtime : Bytes) (now : Int) : List (Bytes × Datum) → Statement Nat
  | [] => return 0
  | (name, value) :: rest =>
    match Codec.encode value with
    | .error (.fault cause) => throw (.fault cause)
    | .error (.failure inner) =>
      if inner.cause = .function then putAll runtime now rest
      else throw (.encoding name inner)
    | .ok data => do
      insert name data runtime now
      return (← putAll runtime now rest) + 1

/-- **Stores many values or none.** -/
def save (values : List (Bytes × Datum)) (runtime : Bytes) (now : Int) : Statement Nat :=
  atomically (putAll runtime now values)

/-! ## Statements on images -/

variable {α : Type}

/-- The result of a statement, and the image that it leaves. -/
def on (statement : Statement α) (image : Image) : Except ImageError α × Image :=
  let (result, c) := statement.run image.connect
  (result, c.image)

/-- The image after a statement that succeeds, with the result. -/
def outcome (statement : Statement α) (image : Image) : Except ImageError (α × Image) :=
  let (result, image) := statement.on image
  result.map (·, image)

end Statement

namespace Image

/-- The image with a value under a name. -/
def put (image : Image) (name : Bytes) (value : Datum) (runtime : Bytes) (now : Int) :
    Except ImageError Image :=
  ((Statement.put name value runtime now).outcome image).map (·.2)

/-- The image without a name. -/
def delete (image : Image) (name : Bytes) : Except ImageError Image :=
  ((Statement.delete name).outcome image).map (·.2)

end Image

end ValueRuntime
