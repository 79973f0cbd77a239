import ValueRuntime.Machine.Eval

/-! # The counter program

    A counter is a function over one captured cell: each call adds one to the cell and
    returns its new value. Making a counter copies the initial value into a cell of its own,
    so counters do not disturb each other.

    The program makes two counters, calls them in turn, prints what they return and collects
    it in the global `results`.
-/

namespace ValueRuntime.Counter

/-- The body of a counter. -/
def counterBody : List Expr :=
  [.assign (.ofCapture 0)
      (.apply (.operator .add) [.get (.ofCapture 0), .number (.ofNat 1)]),
    .get (.ofCapture 0)]

/-- The body of the function that makes a counter from an initial value. -/
def makeCounterBody : List Expr :=
  [.bind (utf8 "n") (.argument 0),
    .function (some counterBody) [.ofLocal (utf8 "n")]]

/-- The global that holds a name's value. -/
def globalRef (name : String) : CellRef := .ofGlobal (utf8 name)

/-- Makes a counter in a global. -/
def startCounter (name : String) (initial : Nat) : Expr :=
  .assign (globalRef name)
    (.call .function [.get (globalRef "makeCounter"), .number (.ofNat initial)])

/-- Calls a counter, then collects and prints the result. -/
def useCounter (name : String) : List Expr :=
  [.hold (utf8 "v") (.call .function [.get (globalRef name)]),
    .apply .append [.get (globalRef "results"), .held (utf8 "v")],
    .call .function [.held (utf8 "print"), .held (utf8 "v")]]

/-- **The program.** Its value is the list of results. -/
def program : List Expr :=
  [.hold (utf8 "print") (.apply .builtin [.string (utf8 "print")]),
    .assign (globalRef "makeCounter") (.function (some makeCounterBody) []),
    startCounter "c1" 12,
    startCounter "c2" 34,
    .assign (globalRef "results") (.list [])]
  ++ ["c1", "c1", "c2", "c1"].flatMap useCounter
  ++ [.get (globalRef "results")]

/-- Evaluations inside each other that the program needs at most. -/
def programFuel : Nat := 8

/-- Runs the program on a runtime. -/
def run : Action Value := Action.runBody programFuel program

end ValueRuntime.Counter
