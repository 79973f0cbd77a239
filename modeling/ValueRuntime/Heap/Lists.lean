import ValueRuntime.Heap.Basic

/-! # Lists on the heap

    Items are read by reference and stored as copies. A list grows only by appending; it
    moves to twice the room when it is full, before the new item is copied. A walk reads
    the room that the list was in when the walk began.
-/

namespace ValueRuntime

/-- The list with room for one more item. What it held before a move is kept for walks. -/
def ListNode.grown (l : ListNode) : ListNode :=
  if l.items.size < l.capacity then l
  else ⟨l.items, grownCapacity l.capacity l.items.size, l.former.push l.items⟩

/-- The list with one more item at its end. -/
def ListNode.push (l : ListNode) (v : Value) : ListNode := { l with items := l.items.push v }

/-- The list with another item at a position. -/
def ListNode.replace (l : ListNode) (index : Nat) (v : Value) : ListNode :=
  { l with items := l.items.setIfInBounds index v }

namespace Heap

/-- **Appends** a copy of a value to a list. Appending a list to itself copies it as it is
    after the move to a larger room. -/
def append (h : Heap) (id : NodeId) (v : Value) : Heap :=
  let stored := (h.modifyList id .grown).copy v
  stored.2.modifyList id (·.push stored.1)

/-- The item at a position, nil outside the list. -/
def item (h : Heap) (id : NodeId) (index : Nat) : Value :=
  ((h.list? id).bind fun l => l.items[index]?).getD .nil

/-- **Replaces** the item at a position by a copy of a value, and says whether there was
    such an item. -/
def replaceItem (h : Heap) (id : NodeId) (index : Nat) (v : Value) : Bool × Heap :=
  if (h.list? id).any (index < ·.items.size) then
    let stored := h.copy v
    (true, stored.2.modifyList id (·.replace index stored.1))
  else (false, h)

/-! ## Walks -/

/-- A walk over a list: the list, the room it was in, and how many items it had. -/
structure Walk where
  node : NodeId
  /-- How often the list had moved when the walk began. -/
  moves : Nat
  length : Nat
  deriving Repr

/-- A walk that begins now. -/
def beginWalk (h : Heap) (id : NodeId) : Walk :=
  match h.list? id with
  | some l => ⟨id, l.former.size, l.items.size⟩
  | none => ⟨id, 0, 0⟩

/-- The item that a walk meets at a position. While the list has not moved this is its
    present item, and afterwards the item it had there when it moved. -/
def walkItem (h : Heap) (walk : Walk) (index : Nat) : Value :=
  match h.list? walk.node with
  | some l => (((l.former[walk.moves]?).getD l.items)[index]?).getD .nil
  | none => .nil

end Heap

end ValueRuntime
