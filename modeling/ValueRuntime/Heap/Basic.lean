import ValueRuntime.Datum.Basic
import ValueRuntime.Progression

/-! # Values and the heap

    A `Value` is what programs hand around. Scalars are values themselves; a list or an
    object is a reference to a node of the heap, so a change through one reference is seen
    through all others.

    `Heap.view` reads the complete contents of a value off the heap, and `Heap.alloc` lays
    out contents in new nodes. Whatever is stored in a container is a copy, which is a view
    laid out again. New nodes come after all old ones and a parent before its children, so
    nodes only ever refer to later nodes and every view is finite.
-/

namespace ValueRuntime

/-! ## Values and nodes -/

/-- The identity of a node. -/
abbrev NodeId := Nat

/-- A value as programs hold it. -/
inductive Value where
  | nil
  | boolean (b : Bool)
  | number (x : Number)
  | string (s : Bytes)
  | list (node : NodeId)
  | object (node : NodeId)
  | function (callable : Option CallableId)
  deriving DecidableEq, Repr

instance : Inhabited Value := ⟨.nil⟩

/-- The contents of a list. -/
structure ListNode where
  /-- The items in order. -/
  items : Array Value
  /-- The number of items there is room for. -/
  capacity : Nat
  /-- What the list held each time it moved to a larger room, the oldest first. A walk that
      began before a move keeps reading the room it began in. -/
  former : Array (Array Value)
  deriving Repr

/-- The contents of an object. -/
structure ObjectNode where
  /-- The keys in insertion order. -/
  keys : Array Value
  /-- The number of keys there is room for. -/
  capacity : Nat
  /-- The value of each key, at the place of the key. -/
  values : Array Value
  deriving Repr

/-- A node of the heap. -/
inductive Node where
  | list (contents : ListNode)
  | object (contents : ObjectNode)
  /-- An object that was never given contents. -/
  | hollow
  deriving Repr

/-- A list with the given items and room. -/
def ListNode.of (capacity : Nat) (items : Array Value) : ListNode := ⟨items, capacity, #[]⟩

/-- An object without keys. -/
def ObjectNode.empty : ObjectNode := ⟨#[], defaultCapacity, #[]⟩

/-- The nodes made so far. A node is never removed. -/
structure Heap where
  nodes : Array Node
  deriving Repr

namespace Heap

/-- The heap without nodes. -/
def empty : Heap := ⟨#[]⟩

/-- The list at a node. -/
def list? (h : Heap) (id : NodeId) : Option ListNode :=
  match h.nodes[id]? with
  | some (.list contents) => some contents
  | _ => none

/-- The object at a node, unless it is hollow. -/
def object? (h : Heap) (id : NodeId) : Option ObjectNode :=
  match h.nodes[id]? with
  | some (.object contents) => some contents
  | _ => none

/-- Replaces the contents of a node. -/
def put (h : Heap) (id : NodeId) (node : Node) : Heap := ⟨h.nodes.setIfInBounds id node⟩

/-- Changes the list at a node. -/
def modifyList (h : Heap) (id : NodeId) (change : ListNode → ListNode) : Heap :=
  ⟨h.nodes.modify id fun
    | .list contents => .list (change contents)
    | node => node⟩

/-- Makes a new node. -/
def add (h : Heap) (node : Node) : NodeId × Heap := (h.nodes.size, ⟨h.nodes.push node⟩)

/-! ## Reading contents -/

/-- The contents of a value, followed through at most `depth` containers. -/
def viewWithin (h : Heap) : (depth : Nat) → Value → Datum
  | _, .nil => .nil
  | _, .boolean b => .boolean b
  | _, .number x => .number x
  | _, .string s => .string s
  | _, .function callable => .function callable
  | 0, .list _ => .nil
  | 0, .object _ => .nil
  | depth + 1, .list id =>
    match h.nodes[id]? with
    | some (.list l) => .list l.capacity (l.items.toList.map (viewWithin h depth))
    | _ => .nil
  | depth + 1, .object id =>
    match h.nodes[id]? with
    | some (.object o) =>
      .object o.capacity (o.keys.toList.map (viewWithin h depth))
        (o.values.toList.map (viewWithin h depth))
    | _ => .hollow

/-- **The contents** of a value. No chain of containers is longer than the heap. -/
def view (h : Heap) (v : Value) : Datum := h.viewWithin h.nodes.size v

/-! ## Laying out contents -/

/-- Something laid out in new nodes. -/
structure Laid (α : Type) where
  /-- What refers to the nodes. -/
  result : α
  /-- The next free node. -/
  next : NodeId
  /-- Puts the new nodes in front of others. -/
  onto : List Node → List Node

/-- The new nodes. -/
def Laid.nodes {α : Type} (laid : Laid α) : List Node := laid.onto []

mutual

/-- The nodes that hold a datum when the next free node is `base`, and the value that
    refers to them. A parent comes before its children. A hollow object is laid out as an
    empty one. -/
def layout (base : NodeId) : Datum → Laid Value
  | .nil => ⟨.nil, base, id⟩
  | .boolean b => ⟨.boolean b, base, id⟩
  | .number x => ⟨.number x, base, id⟩
  | .string s => ⟨.string s, base, id⟩
  | .function callable => ⟨.function callable, base, id⟩
  | .list capacity items =>
    let children := layoutAll (base + 1) items
    let node : Node := .list (.of capacity children.result.toArray)
    ⟨.list base, children.next, fun rest => node :: children.onto rest⟩
  | .object capacity keys values =>
    let keyPart := layoutAll (base + 1) keys
    let valuePart := layoutAll keyPart.next values
    let node : Node := .object ⟨keyPart.result.toArray, capacity, valuePart.result.toArray⟩
    ⟨.object base, valuePart.next, fun rest => node :: keyPart.onto (valuePart.onto rest)⟩
  | .hollow => ⟨.object base, base + 1, fun rest => .object .empty :: rest⟩

/-- The nodes of several data, one after the other. -/
def layoutAll (base : NodeId) : List Datum → Laid (List Value)
  | [] => ⟨[], base, id⟩
  | d :: rest =>
    let first := layout base d
    let more := layoutAll first.next rest
    ⟨first.result :: more.result, more.next, fun rest => first.onto (more.onto rest)⟩

end

/-- Stores contents in new nodes. -/
def alloc (h : Heap) (d : Datum) : Value × Heap :=
  let laid := layout h.nodes.size d
  (laid.result, ⟨h.nodes ++ laid.nodes⟩)

/-- **A copy** of a value: the same contents in new nodes. -/
def copy (h : Heap) (v : Value) : Value × Heap := h.alloc (h.view v)

/-- A new list holding copies of values, with exactly the room they need. An empty list
    gets the default room. -/
def newList (h : Heap) (values : List Value) : Value × Heap :=
  let capacity := if values.isEmpty then defaultCapacity else values.length
  h.alloc (.list capacity (values.map h.view))

end Heap

end ValueRuntime
