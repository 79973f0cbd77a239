import ValueRuntime.Text.Bytes

/-! # Faults

    A fault ends the running operation. Effects made before it stay. Only two things can
    go wrong inside the runtime: an object is read at a key that has no value, or something
    without contents is written to or walked.
-/

namespace ValueRuntime

/-- Why an operation was ended. -/
inductive Fault where
  /-- A position at or beyond the end of a sequence was read or written. -/
  | indexOutOfRange (index length : Nat)
  /-- The contents of something that has none were needed. -/
  | noContents
  deriving DecidableEq, Repr

/-- The message of a fault. -/
def Fault.message : Fault → Bytes
  | .indexOutOfRange index length =>
    utf8 "runtime error: index out of range [" ++ Bytes.decimal index ++ utf8 "] with length "
      ++ Bytes.decimal length
  | .noContents => utf8 "runtime error: invalid memory address or nil pointer dereference"

end ValueRuntime
