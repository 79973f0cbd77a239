import ValueRuntime.Codec.Item
import ValueRuntime.Fault

/-! # Failures of encoding and decoding

    A failure has a cause and the way from the outermost container to the place it was met.
    The way is part of the message, from the outside in.
-/

namespace ValueRuntime.Codec

/-- The text of a key in a message. A key that has no text is shown by its fault. -/
def keyText : Except Fault Bytes → Bytes
  | .ok text => text
  | .error fault => utf8 "%!s(PANIC=String method: " ++ fault.message ++ utf8 ")"

/-- One step into a container. -/
inductive Step where
  | listElement (index : Nat)
  /-- A key of an object, shown by its text or its position. -/
  | objectKey (shown : Bytes)
  /-- The value of an object's key, shown by the key's text or position. -/
  | objectMember (shown : Bytes)
  deriving DecidableEq, Repr

/-- The message part of a step. -/
def Step.message : Step → Bytes
  | .listElement index => utf8 "list element " ++ Bytes.decimal index ++ utf8 ": "
  | .objectKey shown => utf8 "object key " ++ shown ++ utf8 ": "
  | .objectMember shown => utf8 "object member " ++ shown ++ utf8 ": "

/-- Why a value cannot be encoded, or a record is no value. -/
inductive Cause where
  | function
  | tooDeep
  | invalidKind (code : Nat)
  | keyCount (keys values : Nat)
  deriving DecidableEq, Repr

/-- The message of a cause. -/
def Cause.message : Cause → Bytes
  | .function => utf8 "codec: function values cannot be encoded"
  | .tooDeep => utf8 "codec: value nested too deeply"
  | .invalidKind code => utf8 "codec: invalid value kind: " ++ Bytes.decimal code
  | .keyCount keys values =>
    utf8 "codec: object has " ++ Bytes.decimal keys ++ utf8 " keys and " ++ Bytes.decimal values
      ++ utf8 " values"

/-- A failure: what is wrong, and where. -/
structure Failure where
  path : List Step
  cause : Cause
  deriving DecidableEq, Repr

/-- A failure right here. -/
def Failure.here (cause : Cause) : Failure := ⟨[], cause⟩

/-- The failure seen from one container further out. -/
def Failure.within (step : Step) (failure : Failure) : Failure :=
  { failure with path := step :: failure.path }

/-- The message of a failure. -/
def Failure.message (failure : Failure) : Bytes :=
  failure.path.flatMap Step.message ++ failure.cause.message

/-- Why encoding stopped. -/
inductive EncodeError where
  | fault (cause : Fault)
  | failure (inner : Failure)
  deriving DecidableEq, Repr

/-- An encoding error seen from one container further out. -/
def EncodeError.within (step : Step) : EncodeError → EncodeError
  | .fault cause => .fault cause
  | .failure inner => .failure (inner.within step)

/-- Why decoding stopped. -/
inductive DecodeError where
  | malformed (cause : Malformed)
  | failure (inner : Failure)
  deriving DecidableEq, Repr

end ValueRuntime.Codec
