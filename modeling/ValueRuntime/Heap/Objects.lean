import ValueRuntime.Fault
import ValueRuntime.Heap.Basic

/-! # Objects on the heap

    A key is found by comparing it with each key in turn. Storing under a known key
    replaces its value; a new key is appended together with its value. The key goes in
    first: if the value contains the object itself, it is copied with that key present and
    without a value for it.
-/

namespace ValueRuntime

/-- The object with room for one more key. -/
def ObjectNode.grown (o : ObjectNode) : ObjectNode :=
  { o with capacity := grownCapacity o.capacity o.keys.size }

/-- The object with one more key at the end. -/
def ObjectNode.pushKey (o : ObjectNode) (key : Value) : ObjectNode :=
  { o with keys := o.keys.push key }

/-- The object with one more value at the end. -/
def ObjectNode.pushValue (o : ObjectNode) (v : Value) : ObjectNode :=
  { o with values := o.values.push v }

/-- The object with another value at a position. -/
def ObjectNode.replaceValue (o : ObjectNode) (index : Nat) (v : Value) : ObjectNode :=
  { o with values := o.values.setIfInBounds index v }

namespace Heap

/-- The position of the first key that equals a given one. -/
def keyIndex? (h : Heap) (o : ObjectNode) (key : Value) : Option Nat :=
  let wanted := h.view key
  o.keys.toList.findIdx? fun k => (h.view k).equal wanted

/-- The number of keys of an object. -/
def keyCount (h : Heap) (id : NodeId) : Nat := ((h.object? id).map (·.keys.size)).getD 0

/-- The value at a position, which is a fault when the key there has none. -/
def valueAt (o : ObjectNode) (index : Nat) : Except Fault Value :=
  match o.values[index]? with
  | some v => .ok v
  | none => .error (.indexOutOfRange index o.values.size)

/-- **The value** stored under a key, nil when the key is unknown. -/
def lookup (h : Heap) (id : NodeId) (key : Value) : Except Fault Value :=
  match h.object? id with
  | none => .ok .nil
  | some o => match h.keyIndex? o key with
    | some index => valueAt o index
    | none => .ok .nil

/-- Whether a key is known. -/
def hasKey (h : Heap) (id : NodeId) (key : Value) : Bool :=
  ((h.object? id).bind fun o => h.keyIndex? o key).isSome

/-- **Stores** a copy of a value under a key. -/
def store (h : Heap) (id : NodeId) (key v : Value) : Except Fault Heap :=
  match h.object? id with
  | none => .error .noContents
  | some o => match h.keyIndex? o key with
    | some index =>
      if index < o.values.size then
        let stored := h.copy v
        .ok (stored.2.put id (.object (o.replaceValue index stored.1)))
      else .error (.indexOutOfRange index o.values.size)
    | none =>
      let storedKey := (h.put id (.object o.grown)).copy key
      let withKey := o.grown.pushKey storedKey.1
      let storedValue := (storedKey.2.put id (.object withKey)).copy v
      .ok (storedValue.2.put id (.object (withKey.pushValue storedValue.1)))

/-- A new empty object. -/
def newObject (h : Heap) : NodeId × Heap := h.add (.object .empty)

/-- Stores several pairs in order. -/
def storeAll (h : Heap) (id : NodeId) : List (Value × Value) → Except Fault Heap
  | [] => .ok h
  | (key, v) :: rest => do (← h.store id key v).storeAll id rest

/-- Keys paired with the values at their places, nil where the values have ended. -/
def pairUp : List Value → List Value → List (Value × Value)
  | [], _ => []
  | key :: keys, [] => (key, .nil) :: pairUp keys []
  | key :: keys, v :: values => (key, v) :: pairUp keys values

/-- **An object from keys and values.** Of equal keys the first gives the place and the last
    the value; a key without a value gets nil, and values without a key are left out. -/
def objectOf (h : Heap) (keys values : List Value) : Except Fault (Value × Heap) := do
  let (id, h) := h.newObject
  return (.object id, ← h.storeAll id (pairUp keys values))

/-- A new list holding copies of an object's keys, with the room the keys had. -/
def keyList (h : Heap) (id : NodeId) : Value × Heap :=
  match h.object? id with
  | some o => h.alloc (.list o.capacity (o.keys.toList.map h.view))
  | none => h.newList []

end Heap

end ValueRuntime
