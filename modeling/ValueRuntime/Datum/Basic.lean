import ValueRuntime.Kind
import ValueRuntime.Number.Basic

/-! # Data

    A `Datum` is the complete contents of a value as a tree, apart from where the value is
    stored and who else refers to it. Equality, order, truth, text and the encoded form of
    a value depend on its datum alone.

    An object keeps its keys and its values as two sequences in insertion order. The value
    of a key stands at the same place in the other sequence. An object that was stored in
    itself can hold more keys than values; reading such a key is a fault.
-/

namespace ValueRuntime

/-- The identity of a callable. Copies of a function share it. -/
abbrev CallableId := Nat

/-- The contents of a value. -/
inductive Datum where
  | nil
  | boolean (b : Bool)
  | number (x : Number)
  | string (s : Bytes)
  /-- A list and the number of items it has room for. -/
  | list (capacity : Nat) (items : List Datum)
  /-- An object and the number of keys it has room for. -/
  | object (capacity : Nat) (keys values : List Datum)
  /-- An object that was never given contents. It reads as empty. -/
  | hollow
  /-- A function, with its callable if it has one. -/
  | function (callable : Option CallableId)
  deriving Repr

namespace Datum

instance : Inhabited Datum := ⟨.nil⟩

/-- The kind of a datum. -/
def kind : Datum → Kind
  | .nil => .nil
  | .boolean _ => .boolean
  | .number _ => .number
  | .string _ => .string
  | .list _ _ => .list
  | .object _ _ _ => .object
  | .hollow => .object
  | .function _ => .function

/-- The number of bytes, items or keys. Other kinds have no length. -/
def length? : Datum → Option Nat
  | .string s => some s.length
  | .list _ items => some items.length
  | .object _ keys _ => some keys.length
  | .hollow => some 0
  | _ => none

/-- What a condition sees: nil, false, the zeros and everything of length zero are false. -/
def isTruthy : Datum → Bool
  | .nil => false
  | .boolean b => b
  | .number x => !x.isZero
  | .function _ => true
  | d => d.length? != some 0

/-! ## Equality -/

mutual

/-- **Equality** of data. Numbers are equal as numbers, lists item by item whatever their
    capacity, and functions when they share their callable. An object equals nothing, not
    even itself. -/
def equal : Datum → Datum → Bool
  | .nil, .nil => true
  | .boolean a, .boolean b => a == b
  | .number x, .number y => x.equal y
  | .string s, .string t => s == t
  | .list _ xs, .list _ ys => equalAll xs ys
  | .function f, .function g => f == g
  | _, _ => false

/-- Equality item by item. -/
def equalAll : List Datum → List Datum → Bool
  | [], [] => true
  | x :: xs, y :: ys => equal x y && equalAll xs ys
  | _, _ => false

end

/-! ## Order -/

/-- **Order** of data of one kind: false before true, numbers numerically, strings
    byte-wise, lists and objects by length. Nothing else is ordered. -/
def less (a b : Datum) : Bool :=
  match a, b with
  | .boolean a, .boolean b => !a && b
  | .number x, .number y => x.less y
  | .string s, .string t => Bytes.less s t
  | a, b =>
    (a.kind == .list || a.kind == .object) && a.kind == b.kind
      && decide (a.length?.getD 0 < b.length?.getD 0)

/-- The opposite of `less` within one orderable kind, so that equal data are greater than
    each other. Nil and functions are never greater. -/
def greater (a b : Datum) : Bool :=
  a.kind == b.kind && a.kind != .nil && a.kind != .function && !a.less b

/-- Less or equal. -/
def lessEqual (a b : Datum) : Bool := a.less b || a.equal b

/-- Greater or equal. -/
def greaterEqual (a b : Datum) : Bool := a.greater b || a.equal b

end Datum

end ValueRuntime
