import ValueRuntime.Codec.Failure
import ValueRuntime.Heap.Lists
import ValueRuntime.Heap.Objects
import ValueRuntime.Machine.Expr
import ValueRuntime.NameTable

/-! # Machines

    A machine is one runtime with everything it can reach: the heap, the cells that
    functions capture, the callables behind functions, builtins, globals and output, and
    the frame of the code that is running.

    An `Action` changes a machine and ends with a value or stops. The changes made before a
    stop stay.
-/

namespace ValueRuntime

/-- The identity of a cell. -/
abbrev CellId := Nat

/-- The functions that every runtime provides, in the order of their names. -/
inductive Builtin where
  | keys
  | len
  | print
  | range
  | toString
  | type
  deriving DecidableEq, Repr

/-- All builtins in the order of their names. -/
def Builtin.all : List Builtin := [.keys, .len, .print, .range, .toString, .type]

/-- The name of a builtin. -/
def Builtin.name : Builtin → Bytes
  | .keys => utf8 "keys"
  | .len => utf8 "len"
  | .print => utf8 "print"
  | .range => utf8 "range"
  | .toString => utf8 "toString"
  | .type => utf8 "type"

/-- What runs when a function is called. -/
inductive Entry where
  | body (code : List Expr)
  | builtin (b : Builtin)
  deriving Repr

/-- The identity behind a function and all its copies: what runs, and the captured cells. -/
structure Callable where
  entry : Option Entry
  captured : List (Option CellId)
  deriving Repr

/-- An iteration over a snapshot of a value. -/
structure Iterator where
  source : Value
  position : Nat
  deriving Repr

/-- Where code runs: its captured cells, its arguments, and what it has named. -/
structure Frame where
  captured : List (Option CellId)
  args : List Value
  locals : List (Bytes × CellId)
  held : List (Bytes × Value)
  iterators : List (Bytes × Iterator)
  deriving Repr

/-- The names with one given a new meaning. -/
def named {α : Type} (name : Bytes) (a : α) (names : List (Bytes × α)) : List (Bytes × α) :=
  (name, a) :: names.filter (·.1 != name)

/-- The frame of a call. -/
def Frame.ofCall (captured : List (Option CellId)) (args : List Value) : Frame :=
  ⟨captured, args, [], [], []⟩

/-- A runtime and its state. -/
structure Machine where
  /-- The identity of the runtime, which stored values are marked with. -/
  id : Bytes
  name : Bytes
  /-- Whether output can be written. -/
  writable : Bool
  heap : Heap
  cells : Array Value
  callables : Array Callable
  globals : NameTable CellId
  /-- How many values were printed. -/
  prints : Nat
  /-- The lines that were written, the latest first. -/
  lines : List Bytes
  frame : Frame
  deriving Repr

/-- A new runtime. Without a name its identity is its name. The callables of the builtins
    come first, in the order of `Builtin.all`. -/
def Machine.new (id name : Bytes) (writable : Bool) : Machine where
  id := id
  name := if name.isEmpty then id else name
  writable := writable
  heap := .empty
  cells := #[]
  callables := (Builtin.all.map fun b => ⟨some (.builtin b), []⟩).toArray
  globals := []
  prints := 0
  lines := []
  frame := .ofCall [] []

/-- What was written so far. -/
def Machine.output (m : Machine) : Bytes := m.lines.reverse.flatMap (· ++ utf8 "\n")

/-! ## Actions -/

/-- Why an action stopped. -/
inductive Stop where
  | fault (cause : Fault)
  | failure (inner : Codec.Failure)
  | malformed (cause : Codec.Malformed)
  | outOfFuel
  deriving DecidableEq, Repr

/-- A change of a machine that ends with a result or stops. -/
abbrev Action (α : Type) := ExceptT Stop (StateM Machine) α

namespace Action

variable {α : Type}

/-- A result that may be a fault. -/
def ofFault (result : Except Fault α) : Action α :=
  match result with
  | .ok a => pure a
  | .error cause => throw (.fault cause)

/-- The contents of a value. -/
def view (v : Value) : Action Datum := do return (← get).heap.view v

/-- A step of the heap that has a result. While it runs, the machine does not hold the
    heap. -/
def onHeap (step : Heap → α × Heap) : Action α :=
  modifyGet fun m =>
    let heap := m.heap
    let m := { m with heap := .empty }
    let result := step heap
    (result.1, { m with heap := result.2 })

/-- A step of the heap that may be a fault, which leaves the heap unchanged. -/
def tryHeap (step : Heap → Except Fault (α × Heap)) : Action α := do
  let (a, heap) ← ofFault (step (← get).heap)
  modify fun m => { m with heap := heap }
  return a

/-- A copy of a value. -/
def copy (v : Value) : Action Value := onHeap (·.copy v)

/-- A new value with given contents. -/
def alloc (d : Datum) : Action Value := onHeap (·.alloc d)

/-- A new list with copies of values. -/
def newList (values : List Value) : Action Value := onHeap (·.newList values)

/-! ### Cells -/

/-- A new cell holding a copy of a value. -/
def newCell (v : Value) : Action CellId := do
  let stored ← copy v
  modifyGet fun m => (m.cells.size, { m with cells := m.cells.push stored })

/-- The value in a cell, nil without a cell. -/
def readCell (cell : Option CellId) : Action Value := do
  let m ← get
  return (cell.bind fun id => m.cells[id]?).getD .nil

/-- Stores a copy of a value in a cell. Without a cell nothing happens. -/
def writeCell (cell : Option CellId) (v : Value) : Action Unit := do
  match cell with
  | none => return
  | some id =>
    let stored ← copy v
    modify fun m => { m with cells := m.cells.setIfInBounds id stored }

/-- The cell of a global, made holding nil when there is none yet. -/
def globalCell (name : Bytes) : Action CellId := do
  match (← get).globals.find? name with
  | some id => return id
  | none => modifyGet fun m =>
      (m.cells.size,
        { m with
          cells := m.cells.push .nil
          globals := m.globals.insert name m.cells.size })

/-- The entry of a list at an integer position. -/
def atIndex? (entries : List α) (index : Int) : Option α :=
  if 0 ≤ index then entries[index.toNat]? else none

/-- The cell that a reference stands for. -/
def resolve (ref : CellRef) : Action (Option CellId) := do
  match ref with
  | .ofLocal name => return (← get).frame.locals.lookup name
  | .ofCapture index => return (atIndex? (← get).frame.captured index).join
  | .ofGlobal name => return some (← globalCell name)
  | .absent => return none

/-! ### Functions -/

/-- A new function over captured cells. -/
def newFunction (entry : Option Entry) (captured : List (Option CellId)) : Action Value :=
  modifyGet fun m =>
    (.function (some m.callables.size), { m with callables := m.callables.push ⟨entry, captured⟩ })

/-- The callable of a function. -/
def callable? (v : Value) : Action (Option Callable) := do
  match v with
  | .function (some id) => return (← get).callables[id]?
  | _ => return none

/-- Runs an action in another frame. Afterwards, also after a stop, the present frame is
    back. -/
def inFrame (frame : Frame) (action : Action α) : Action α :=
  ExceptT.mk fun m =>
    let present := m.frame
    let (result, after) := action.run { m with frame := frame }
    (result, { after with frame := present })

/-- Changes the present frame. -/
def modifyFrame (change : Frame → Frame) : Action Unit :=
  modify fun m => { m with frame := change m.frame }

/-! ### Output -/

/-- Prints the text of a value and a line end. The attempt counts even if the value has no
    text or the output cannot be written. -/
def print (v : Value) : Action Unit := do
  modify fun m => { m with prints := m.prints + 1 }
  let text ← ofFault (← view v).text
  modify fun m => if m.writable then { m with lines := text :: m.lines } else m

/-! ### Iterators -/

/-- An iteration over the present contents of a value. -/
def iterator (v : Value) : Action Iterator := do return ⟨← copy v, 0⟩

/-- How many values an iteration gives in all. -/
def iteratorLength (it : Iterator) : Action Nat := do
  match it.source with
  | .string s => return s.length
  | .list id => return ((← get).heap.list? id).elim 0 (·.items.size)
  | .object id => return (← get).heap.keyCount id
  | _ => return 0

/-- The value at the position of an iteration: an item, a one-byte string, or a list of a
    key and its value. -/
def iteratorValue (it : Iterator) : Action Value := do
  match it.source with
  | .string s => return .string ((s.drop it.position).take 1)
  | .list id => return (← get).heap.item id it.position
  | .object id =>
    match (← get).heap.object? id with
    | none => return .nil
    | some o =>
      let value ← ofFault (Heap.valueAt o it.position)
      newList [(o.keys[it.position]?).getD .nil, value]
  | _ => return .nil

end Action

end ValueRuntime
