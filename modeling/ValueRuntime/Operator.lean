import ValueRuntime.Datum.Text

/-! # Operators

    The operators of the language that look only at the contents of their operands. None
    of them fails on an operand of the wrong kind: the answer is then false or nil. The
    one fault is the text of an object that lacks a value.
-/

namespace ValueRuntime

/-- Operators with two operands. -/
inductive Operator where
  | and
  | or
  | equal
  | notEqual
  | less
  | greater
  | lessEqual
  | greaterEqual
  | add
  | subtract
  | multiply
  | divide
  | mod
  deriving DecidableEq, Repr

/-- Operators with one operand. -/
inductive UnaryOperator where
  | not
  | negate
  | length
  | typeName
  | toText
  deriving DecidableEq, Repr

namespace Operator

/-- From this count on a string is not repeated. -/
def repeatLimit : Nat := 2147483647

/-- Addition: numbers are summed; with a string on either side the texts are joined. -/
def addData (a b : Datum) : Except Fault Datum :=
  match a, b with
  | .number x, .number y => .ok (.number (x.add y))
  | .string _, _ | _, .string _ => do
    let left ← a.text
    let right ← b.text
    return .string (left ++ right)
  | _, _ => .ok .nil

/-- An operation on two numbers, nil for everything else. -/
def onNumbers (f : Number → Number → Number) (a b : Datum) : Datum :=
  match a, b with
  | .number x, .number y => .number (f x y)
  | _, _ => .nil

/-- Multiplication: numbers are multiplied, and a string times a positive number is
    repeated as often as the number's integer part says. -/
def multiplyData (a b : Datum) : Datum :=
  match a, b with
  | .string s, .number x =>
    match (Number.zero false).less x, x.integerPart? with
    | true, some count =>
      if count < repeatLimit then .string (s.repeated count.toNat) else .nil
    | _, _ => .nil
  | a, b => onNumbers Number.mul a b

/-- The remainder of the integer parts, nil where there is none. -/
def modData (a b : Datum) : Datum :=
  match a, b with
  | .number x, .number y => (x.trunc.rem? y.trunc).elim .nil .number
  | _, _ => .nil

/-- The result of an operator on two data. -/
def apply (op : Operator) (a b : Datum) : Except Fault Datum :=
  match op with
  | .and => .ok (.boolean (a.isTruthy && b.isTruthy))
  | .or => .ok (.boolean (a.isTruthy || b.isTruthy))
  | .equal => .ok (.boolean (a.equal b))
  | .notEqual => .ok (.boolean (!a.equal b))
  | .less => .ok (.boolean (a.less b))
  | .greater => .ok (.boolean (a.greater b))
  | .lessEqual => .ok (.boolean (a.lessEqual b))
  | .greaterEqual => .ok (.boolean (a.greaterEqual b))
  | .add => addData a b
  | .subtract => .ok (onNumbers Number.sub a b)
  | .multiply => .ok (multiplyData a b)
  | .divide => .ok (onNumbers Number.div a b)
  | .mod => .ok (modData a b)

end Operator

/-- The result of an operator on one datum. -/
def UnaryOperator.apply (op : UnaryOperator) (a : Datum) : Except Fault Datum :=
  match op with
  | .not => .ok (.boolean (!a.isTruthy))
  | .negate =>
    match a with
    | .number x => .ok (.number x.negate)
    | _ => .ok .nil
  | .length => .ok (a.length?.elim .nil fun n => .number (.ofNat n))
  | .typeName => .ok (.string (utf8 a.kind.name))
  | .toText => return .string (← a.text)

end ValueRuntime
