import ValueRuntime.Machine.Primitive

/-! # Evaluation

    Expressions are evaluated from left to right. The body of a function runs in a fresh
    frame with the captured cells of the function and the arguments of the call, and its
    last value is the result.

    Functions can call themselves through cells, so evaluation takes fuel: a bound on how
    deeply evaluations nest. `step` says how an expression is evaluated, given a way to
    evaluate its parts, and `eval` ties the knot.

    The evaluator leaves open what happens at a call besides running it. It works in every
    monad that has actions as its steps; in `Action` itself nothing else happens.
-/

namespace ValueRuntime

/-- Contents wrapped once. -/
def Wrapping.around : Wrapping → Datum → Datum
  | .item, d => .list 1 [d]
  | .member, d => .object defaultCapacity [.string (utf8 "k")] [d]
  | .key, d => .object defaultCapacity [d] [.nil]

/-- **A monad in which code calls functions.** -/
class MonadCall (m : Type → Type) extends Monad m, MonadLift Action m where
  /-- Runs the body of a function in a frame of its own. -/
  inCall {α : Type} (captured : List (Option CellId)) (args : List Value) (body : m α) : m α
  /-- Makes a call, given what it runs. -/
  calling (f : Value) (args : List Value) (body : m Value) : m Value

/-- A call is what it runs. -/
instance : MonadCall Action where
  monadLift x := x
  inCall captured args body := Action.inFrame (.ofCall captured args) body
  calling _ _ body := body

/-- A way to evaluate an expression. -/
abbrev Evaluator := Expr → Action Value

namespace Action

variable {m : Type → Type} [MonadCall m]

/-- The last value of a list of expressions evaluated in order, nil for none. -/
def evalLast (eval : Expr → m Value) : List Expr → m Value
  | [] => pure .nil
  | [e] => eval e
  | e :: rest => do
    let _ ← eval e
    evalLast eval rest

/-- The values of expressions evaluated in order. -/
def evalAll (eval : Expr → m Value) : List Expr → m (List Value)
  | [] => pure []
  | e :: rest => do
    let first ← eval e
    let more ← evalAll eval rest
    return first :: more

/-- The keys and values of pairs of expressions, each key before its value. -/
def evalPairs (eval : Expr → m Value) : List (Expr × Expr) → m (List Value × List Value)
  | [] => pure ([], [])
  | (key, content) :: rest => do
    let k ← eval key
    let v ← eval content
    let more ← evalPairs eval rest
    return (k :: more.1, v :: more.2)

/-- The cells of several references, resolved in order. -/
def resolveAll : List CellRef → Action (List (Option CellId))
  | [] => pure []
  | ref :: rest => do
    let first ← resolve ref
    let more ← resolveAll rest
    return first :: more

/-- Evaluates an expression a number of times and gives the last value. -/
def evalTimes (eval : Expr → m Value) (e : Expr) : (count : Nat) → (last : Value) → m Value
  | 0, last => pure last
  | count + 1, _ => do
    let v ← eval e
    evalTimes eval e count v

/-- A copy of a value wrapped a number of times. Without a wrapping it is the value
    itself. -/
def wrapTimes (wrapping : Wrapping) (count : Nat) (v : Value) : Action Value := do
  if count = 0 then return v
  else alloc (Nat.repeat wrapping.around count (← view v))

/-! ## Calls -/

/-- What a call runs. Calling what is no function, or a function without an entry, gives
    nil. -/
def callBody (eval : Expr → m Value) (f : Value) (args : List Value) : m Value := do
  match ← callable? f with
  | none => return .nil
  | some callable =>
    match callable.entry with
    | none => return .nil
    | some (.builtin b) => performOn b.primitive args
    | some (.body code) => MonadCall.inCall callable.captured args (evalLast eval code)

/-- **Calls** a value with arguments. -/
def call (eval : Expr → m Value) (f : Value) (args : List Value) : m Value :=
  MonadCall.calling f args (callBody eval f args)

/-- Calls a function with the positions and items that a walk meets from `index` on. -/
def callOnItems (eval : Expr → m Value) (f : Value) (walk : Heap.Walk) :
    (remaining index : Nat) → m Unit
  | 0, _ => pure ()
  | remaining + 1, index => do
    let item := (← (get : Action Machine)).heap.walkItem walk index
    let result ← call eval f [.ofNat index, item]
    if (← view result).isTruthy then callOnItems eval f walk remaining (index + 1)

/-- Calls a function with keys and the values that stand at their places at that moment. -/
def callOnPairs (eval : Expr → m Value) (f : Value) (id : NodeId) :
    (index : Nat) → (keys : List Value) → m Unit
  | _, [] => pure ()
  | index, key :: rest => do
    match (← (get : Action Machine)).heap.object? id with
    | none => return
    | some o =>
      let value ← ofFault (Heap.valueAt o index)
      let result ← call eval f [key, value]
      if (← view result).isTruthy then callOnPairs eval f id (index + 1) rest

/-- What a calling form does with its arguments. -/
def runCalling (eval : Expr → m Value) (calling : Calling) (args : List Value) : m Value := do
  let first := args[0]?.getD .nil
  let second := args[1]?.getD .nil
  match calling with
  | .function => call eval first (args.drop 1)
  | .eachItem =>
    match first with
    | .list id =>
      let walk := (← (get : Action Machine)).heap.beginWalk id
      callOnItems eval second walk walk.length 0
      return .nil
    | _ => return .nil
  | .eachPair =>
    match first with
    | .object id =>
      match (← (get : Action Machine)).heap.object? id with
      | none => (throw (.fault .noContents) : Action Value)
      | some o =>
        callOnPairs eval second id 0 o.keys.toList
        return .nil
    | _ => return .nil

/-! ## Expressions -/

/-- Whether an iteration that was begun under a name goes on. -/
def hasNext (name : Bytes) : Action Value := do
  match (← get).frame.iterators.lookup name with
  | none => return .boolean false
  | some it => return .boolean (it.position < (← iteratorLength it))

/-- The next value of an iteration that was begun under a name, nil at its end. -/
def next (name : Bytes) : Action Value := do
  match (← get).frame.iterators.lookup name with
  | none => return .nil
  | some it =>
    if it.position < (← iteratorLength it) then
      let v ← iteratorValue it
      modifyFrame fun f =>
        { f with iterators := named name { it with position := it.position + 1 } f.iterators }
      return v
    else return .nil

/-- Evaluates an expression, given a way to evaluate its parts and the bodies it calls. -/
def step (eval : Expr → m Value) : Expr → m Value
  | .nil => return .nil
  | .boolean b => return .boolean b
  | .number x => return .number x
  | .string s => return .string s
  | .list items => do newList (← evalAll eval items)
  | .object entries => do
    let (keys, values) ← evalPairs eval entries
    tryHeap (·.objectOf keys values)
  | .function body captured =>
    (do newFunction (body.map .body) (← resolveAll captured) : Action Value)
  | .nest count wrapping e => do wrapTimes wrapping count (← eval e)
  | .bind name e => do
    let cell ← newCell (← eval e)
    modifyFrame fun f => { f with locals := named name cell f.locals }
    readCell (some cell)
  | .get ref => (do readCell (← resolve ref) : Action Value)
  | .assign ref e => do
    let cell ← resolve ref
    writeCell cell (← eval e)
    readCell cell
  | .copyTo ref e => do
    let cell ← resolve ref
    writeCell cell (← eval e)
    return .nil
  | .argument index => (do return (atIndex? (← get).frame.args index).getD .nil : Action Value)
  | .hold name e => do
    let v ← eval e
    modifyFrame fun f => { f with held := named name v f.held }
    return v
  | .held name => (do return ((← get).frame.held.lookup name).getD .nil : Action Value)
  | .ifThenElse condition yes no => do
    let c ← eval condition
    if (← view c).isTruthy then eval yes else eval no
  | .seq es => evalLast eval es
  | .times count e => evalTimes eval e count .nil
  | .iterate name e => do
    let it ← iterator (← eval e)
    modifyFrame fun f => { f with iterators := named name it f.iterators }
    return .nil
  | .hasNext name => hasNext name
  | .next name => next name
  | .apply primitive args => do performOn primitive (← evalAll eval args)
  | .call calling args => do runCalling eval calling (← evalAll eval args)

/-- **Evaluates** an expression with at most `fuel` evaluations inside each other. -/
def eval : (fuel : Nat) → Expr → m Value
  | 0, _ => (throw .outOfFuel : Action Value)
  | fuel + 1, e => step (eval fuel) e

/-- Runs code as the body of a function called without arguments. -/
def runBody (fuel : Nat) (code : List Expr) : Action Value :=
  inFrame (.ofCall [] []) (evalLast (eval fuel) code)

end Action

end ValueRuntime
