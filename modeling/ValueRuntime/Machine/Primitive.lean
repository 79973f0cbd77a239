import ValueRuntime.Codec.Decode
import ValueRuntime.Codec.Encode
import ValueRuntime.Machine.State

/-! # Primitives

    What the primitives do. None of them calls a function. A primitive on a value of the
    wrong kind gives nil, false, zero or a new empty container; only writing to what is not
    a list or an object is a fault.
-/

namespace ValueRuntime

namespace Value

/-- The number for a natural number. -/
def ofNat (n : Nat) : Value := .number (.ofNat n)

/-- The bytes of a string, none for other kinds. -/
def stringOf : Value → Bytes
  | .string s => s
  | _ => []

/-- The position that a value asks for: the integer part of a number, and zero for other
    kinds. There is none below zero or without an integer part. -/
def position? : Value → Option Nat
  | .number x => x.integerPart?.bind fun i => if 0 ≤ i then some i.toNat else none
  | _ => some 0

end Value

namespace Action

/-- The item of a list, or the value of an object's string key. -/
def subscript (receiver index : Value) : Action Value := do
  match receiver, index with
  | .object id, .string _ => ofFault ((← get).heap.lookup id index)
  | .list id, .number x => return x.toNat?.elim .nil ((← get).heap.item id)
  | _, _ => return .nil

/-- Stores a copy of a value at a position of a list or under a string key of an object,
    and gives back what is stored there. -/
def setSubscript (receiver index v : Value) : Action Value := do
  match receiver, index with
  | .object id, .string _ =>
    tryHeap fun h => do return ((), ← h.store id index v)
    ofFault ((← get).heap.lookup id index)
  | .list id, .number x =>
    match x.toNat? with
    | none => return .nil
    | some position =>
      let _ ← onHeap (·.replaceItem id position v)
      return (← get).heap.item id position
  | _, _ => return .nil

/-- The list at a value. -/
def listNode? (v : Value) : Action (Option ListNode) := do
  match v with
  | .list id => return (← get).heap.list? id
  | _ => return none

/-- The value that encoding and decoding gives back. -/
def roundtrip (v : Value) : Action Value := do
  match Codec.encode (← view v) with
  | .error (.fault cause) => throw (.fault cause)
  | .error (.failure inner) => throw (.failure inner)
  | .ok bytes =>
    match Codec.decode bytes with
    | .error (.malformed cause) => throw (.malformed cause)
    | .error (.failure inner) => throw (.failure inner)
    | .ok d => alloc d

/-- The function value of a builtin. -/
def builtinFunction (name : Bytes) : Value :=
  match Builtin.all.findIdx? (·.name == name) with
  | some index => .function (some index)
  | none => .nil

/-- A new list of strings. -/
def newNameList (names : List Bytes) : Action Value := newList (names.map .string)

/-- The list of an object's keys, nil for other kinds. -/
def keysOf (v : Value) : Action Value := do
  match v with
  | .object id => onHeap (·.keyList id)
  | _ => return .nil

/-- **What a primitive does**, given its first three arguments. -/
def perform (primitive : Primitive) (a b c : Value) : Action Value := do
  match primitive with
  | .operator op => alloc (← ofFault (op.apply (← view a) (← view b)))
  | .unary op => alloc (← ofFault (op.apply (← view a)))
  | .dot =>
    match a with
    | .object id => ofFault ((← get).heap.lookup id b)
    | _ => return .nil
  | .subscript => subscript a b
  | .setSubscript => setSubscript a b c
  | .copy => copy a
  | .isTruthy => return .boolean (← view a).isTruthy
  | .isNil => return .boolean (a == .nil)
  | .asBoolean => return .boolean (a == .boolean true)
  | .asNumber =>
    match a with
    | .number x => return .number x
    | _ => return .ofNat 0
  | .asString => return .string a.stringOf
  | .hasPayload =>
    let kind := (← view a).kind
    newList [.boolean (kind == .list), .boolean (kind == .object), .boolean (kind == .function)]
  | .wrapList =>
    match a with
    | .list id => return .list id
    | _ => newList []
  | .wrapObject =>
    match a with
    | .object id => return .object id
    | _ => return .object (← onHeap Heap.newObject)
  | .wrapFunction =>
    match a with
    | .function callable => return .function callable
    | _ => return .nil
  | .roundtrip => roundtrip a
  | .newList => newList []
  | .bareList => return .list (← onHeap (·.add (.list (.of 0 #[]))))
  | .listLength => return .ofNat ((← listNode? a).elim 0 (·.items.size))
  | .listCapacity => return .ofNat ((← listNode? a).elim 0 (·.capacity))
  | .listValues => newList ((← listNode? a).elim [] (·.items.toList))
  | .append =>
    match a with
    | .list id =>
      if ((← get).heap.list? id).isNone then throw (.fault .noContents)
      onHeap fun h => ((), h.append id b)
      return .nil
    | _ => throw (.fault .noContents)
  | .listItem =>
    match a, b.position? with
    | .list id, some position => return (← get).heap.item id position
    | _, _ => return .nil
  | .replaceItem =>
    match a, b.position? with
    | .list id, some position => return .boolean (← onHeap (·.replaceItem id position c))
    | _, _ => return .boolean false
  | .range => alloc (Datum.range (← view a) (← view b) (← view c))
  | .newObject => return .object (← onHeap Heap.newObject)
  | .bareObject => return .object (← onHeap (·.add .hollow))
  | .objectOf =>
    let keys := (← listNode? a).elim [] (·.items.toList)
    let values := (← listNode? b).elim [] (·.items.toList)
    tryHeap (·.objectOf keys values)
  | .objectLength =>
    match a with
    | .object id => return .ofNat ((← get).heap.keyCount id)
    | _ => return .ofNat 0
  | .objectKeys =>
    match a with
    | .object id => onHeap (·.keyList id)
    | _ => newList []
  | .keys => keysOf a
  | .lookup =>
    match a with
    | .object id => ofFault ((← get).heap.lookup id b)
    | _ => return .nil
  | .hasKey =>
    match a with
    | .object id => return .boolean ((← get).heap.hasKey id b)
    | _ => return .boolean false
  | .store =>
    match a with
    | .object id =>
      tryHeap fun h => do return ((), ← h.store id b c)
      return .nil
    | _ => throw (.fault .noContents)
  | .bareFunction => return .function none
  | .captureCount => return .ofNat ((← callable? a).elim 0 (·.captured.length))
  | .print =>
    print a
    return .nil
  | .builtin => return builtinFunction a.stringOf
  | .builtinNames => newNameList (Builtin.all.map (·.name))
  | .globalNames => newNameList (← get).globals.names
  | .setGlobal =>
    writeCell (some (← globalCell a.stringOf)) b
    return .nil
  | .lookupGlobal => readCell ((← get).globals.find? a.stringOf)
  | .hasGlobal => return .boolean ((← get).globals.find? a.stringOf).isSome
  | .stats =>
    let m ← get
    newList [.ofNat Builtin.all.length, .ofNat m.globals.length, .ofNat m.prints]
  | .runtimeName => return .string (← get).name

/-- Performs a primitive on any number of arguments. -/
def performOn (primitive : Primitive) (args : List Value) : Action Value :=
  perform primitive (args[0]?.getD .nil) (args[1]?.getD .nil) (args[2]?.getD .nil)

end Action

/-- What a builtin does, as a primitive. -/
def Builtin.primitive : Builtin → Primitive
  | .keys => .keys
  | .len => .unary .length
  | .print => .print
  | .range => .range
  | .toString => .unary .toText
  | .type => .unary .typeName

end ValueRuntime
