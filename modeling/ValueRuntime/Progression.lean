import ValueRuntime.Datum.Basic
import ValueRuntime.Number.Arithmetic

/-! # Ranges of numbers

    A range runs from a start towards an end, both included, in steps of one size. The
    direction follows from start and end, so the step is a magnitude. The range ends early
    when a step is too small to change the number it is added to.
-/

namespace ValueRuntime

/-- The room a new empty list has. -/
def defaultCapacity : Nat := 8

/-- The room of a list after it has made sure that one more item fits: twice as much when
    it was full. -/
def grownCapacity (capacity length : Nat) : Nat :=
  if length < capacity then capacity
  else if capacity = 0 then defaultCapacity
  else capacity * 2

/-- The room of a list after `added` items were appended one by one. -/
def capacityAfter (capacity length : Nat) : (added : Nat) → Nat
  | 0 => capacity
  | added + 1 => capacityAfter (grownCapacity capacity length) (length + 1) added

namespace Number

/-- The numbers reached from `x` by `advance` while `reaches` holds, until a step changes
    nothing. -/
def walk (advance : Number → Number) (reaches : Number → Bool) : (fuel : Nat) → Number → List Number
  | 0, _ => []
  | fuel + 1, x =>
    if reaches x then
      x :: (if (advance x).equal x then [] else walk advance reaches fuel (advance x))
    else []

/-- The number of places from one number to another in the numeric order. Each step of a
    range moves by at least one place, so this bounds its length. -/
def distance (x y : Number) : Nat :=
  (x.place?.getD 0 - y.place?.getD 0).natAbs

/-- The numbers from `start` to `stop` in steps of `step`. -/
def progression (start stop step : Number) : List Number :=
  let fuel := start.distance stop + 1
  if start.less stop then walk (·.add step) (fun x => x.less stop || x.equal stop) fuel start
  else walk (·.sub step) (fun x => !x.less stop) fuel start

end Number

/-- **The range** of three data: a list of numbers, empty when start and end are equal. A
    nil step stands for one. There is no range for bounds that are no numbers and for a
    step that is not positive and finite. -/
def Datum.range (start stop step : Datum) : Datum :=
  let step := if step.kind == .nil then .number (.ofNat 1) else step
  match start, stop, step with
  | .number a, .number b, .number s =>
    if !(Number.zero false).less s || !s.isFinite || a.isNaN || b.isNaN then .nil
    else if a.equal b then .list defaultCapacity []
    else
      let numbers := Number.progression a b s
      .list (capacityAfter defaultCapacity 0 numbers.length) (numbers.map .number)
  | _, _, _ => .nil

end ValueRuntime
