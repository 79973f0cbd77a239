import ValueRuntime.Proofs.Machine.Run

/-! # The calls of an evaluation

    A *recorded action* is an action together with the calls that it makes from a session, in
    the order in which they begin. Code can be evaluated in recorded actions too, with each call
    put on the record. `Recorded.action_eval` says that the action is then the one that
    evaluation is without a record, so the record is of what evaluation does.
-/

namespace ValueRuntime

/-- **A call:** what is called with which arguments, where the call begins and how it ends. -/
structure Invocation where
  /-- The session in which the call begins. -/
  session : Session
  callee : Value
  args : List Value
  result : Except Stop Value
  /-- The session that the call leaves. -/
  final : Session

namespace Invocation

/-- The code that a call runs, none for a builtin and for what is no function. -/
def code? (call : Invocation) : Option (List Expr) :=
  match call.callee with
  | .function (some id) =>
    (call.session.machine.callables[id]?).bind fun callable =>
      match callable.entry with
      | some (.body code) => some code
      | _ => none
  | _ => none

/-- Whether a call came to an end before the fuel did. -/
def isCompleted (call : Invocation) : Bool :=
  match call.result with
  | .error .outOfFuel => false
  | _ => true

/-- The contents of what a call returns. -/
def answer (call : Invocation) : Except Stop Datum := call.result.map call.final.heap.view

end Invocation

/-- **A recorded action:** an action, and the calls that it makes from a session. -/
structure Recorded (α : Type) where
  action : Action α
  calls : Session → List Invocation

namespace Recorded

variable {α β : Type}

/-- The calls of one action and then, if it has a result, of the next one. -/
instance : Monad Recorded where
  pure a := ⟨pure a, fun _ => []⟩
  bind x f :=
    ⟨x.action >>= fun a => (f a).action, fun s =>
      x.calls s ++
        match s.result x.action with
        | .ok a => (f a).calls (s.after x.action)
        | .error _ => []⟩

/-- An action that makes no calls. -/
instance : MonadLift Action Recorded where
  monadLift x := ⟨x, fun _ => []⟩

/-- **Each call is put on the record,** before the calls that it makes in turn. -/
instance : MonadCall Recorded where
  inCall captured args x :=
    ⟨MonadCall.inCall captured args x.action, fun s =>
      x.calls (s.perform (.enter captured args))⟩
  calling f args x :=
    ⟨MonadCall.calling f args x.action, fun s =>
      ⟨s, f, args, s.result x.action, s.after x.action⟩ :: x.calls s⟩

/-- A way to evaluate an expression that records its calls. -/
abbrev Evaluator := Expr → Recorded Value

/-- **Evaluates** an expression and records the calls. -/
abbrev eval (fuel : Nat) : Evaluator := Action.eval fuel

/-! ## The record is of the evaluator -/

section Erasure

variable (eval : Evaluator)

theorem action_bind (x : Recorded α) (f : α → Recorded β) :
    (x >>= f).action = x.action >>= fun a => (f a).action := rfl

theorem action_pure (a : α) : (pure a : Recorded α).action = pure a := rfl

theorem action_lift (x : Action α) : (liftM x : Recorded α).action = liftM x := rfl

theorem action_inCall (captured : List (Option CellId)) (args : List Value) (x : Recorded α) :
    (MonadCall.inCall captured args x).action = MonadCall.inCall captured args x.action := rfl

theorem action_calling (f : Value) (args : List Value) (x : Recorded Value) :
    (MonadCall.calling f args x).action = MonadCall.calling f args x.action := rfl

theorem action_evalLast (es : List Expr) :
    (Action.evalLast eval es).action = Action.evalLast (fun e => (eval e).action) es := by
  induction es with
  | nil => rfl
  | cons e rest ih =>
    cases rest with
    | nil => rfl
    | cons e' rest => simp only [Action.evalLast, action_bind, ih]

theorem action_evalAll (es : List Expr) :
    (Action.evalAll eval es).action = Action.evalAll (fun e => (eval e).action) es := by
  induction es with
  | nil => rfl
  | cons e rest ih => simp only [Action.evalAll, action_bind, action_pure, ih]

theorem action_evalPairs (entries : List (Expr × Expr)) :
    (Action.evalPairs eval entries).action
      = Action.evalPairs (fun e => (eval e).action) entries := by
  induction entries with
  | nil => rfl
  | cons entry rest ih => simp only [Action.evalPairs, action_bind, action_pure, ih]

theorem action_evalTimes (e : Expr) (count : Nat) (last : Value) :
    (Action.evalTimes eval e count last).action
      = Action.evalTimes (fun e => (eval e).action) e count last := by
  induction count generalizing last with
  | zero => rfl
  | succ count ih => simp only [Action.evalTimes, action_bind, ih]

theorem action_call (f : Value) (args : List Value) :
    (Action.call eval f args).action = Action.call (fun e => (eval e).action) f args := by
  simp only [Action.call, Action.callBody, action_calling, action_bind, action_lift]
  refine congrArg (MonadCall.calling f args) (bind_congr fun found => ?_)
  split
  · rfl
  · split
    · rfl
    · rfl
    · -- Only a function with a body evaluates anything.
      rw [action_inCall, action_evalLast]

theorem action_callOnItems (f : Value) (walk : Heap.Walk) (remaining index : Nat) :
    (Action.callOnItems eval f walk remaining index).action
      = Action.callOnItems (fun e => (eval e).action) f walk remaining index := by
  induction remaining generalizing index with
  | zero => rfl
  | succ remaining ih =>
    simp only [Action.callOnItems, action_bind, action_lift, action_pure, action_call,
      apply_ite Recorded.action, ih]

theorem action_callOnPairs (f : Value) (id : NodeId) (index : Nat) (keys : List Value) :
    (Action.callOnPairs eval f id index keys).action
      = Action.callOnPairs (fun e => (eval e).action) f id index keys := by
  induction keys generalizing index with
  | nil => rfl
  | cons key rest ih =>
    simp only [Action.callOnPairs, action_bind, action_lift]
    refine bind_congr fun m => ?_
    split
    · rfl
    · simp only [action_bind, action_lift, action_pure, action_call, apply_ite Recorded.action, ih]

theorem action_runCalling (calling : Calling) (args : List Value) :
    (Action.runCalling eval calling args).action
      = Action.runCalling (fun e => (eval e).action) calling args := by
  cases calling with
  | function => exact action_call eval _ _
  | eachItem =>
    simp only [Action.runCalling]
    split
    · simp only [action_bind, action_lift, action_pure, action_callOnItems]
    · rfl
  | eachPair =>
    simp only [Action.runCalling]
    split
    · simp only [action_bind, action_lift]
      refine bind_congr fun m => ?_
      split
      · rfl
      · simp only [action_bind, action_pure, action_callOnPairs]
    · rfl

theorem action_step (e : Expr) :
    (Action.step eval e).action = Action.step (fun e => (eval e).action) e := by
  cases e with
  | seq es => exact action_evalLast eval es
  | times count e => exact action_evalTimes eval e count .nil
  | _ =>
    simp only [Action.step, action_bind, action_lift, action_pure, action_evalAll,
      action_evalPairs, action_runCalling, apply_ite Recorded.action]

end Erasure

/-- **The record is of the evaluator:** evaluation with a record does what it does without. -/
theorem action_eval (fuel : Nat) (e : Expr) : (eval fuel e).action = Action.eval fuel e := by
  -- A step hands its parts to the evaluator with less fuel, of which this is known as a function.
  induction fuel generalizing e with
  | zero => rfl
  | succ fuel ih =>
    rw [eval, Action.eval, action_step, funext ih]
    rfl

theorem action_call_eval (fuel : Nat) (f : Value) (args : List Value) :
    (Action.call (eval fuel) f args).action = Action.call (Action.eval fuel) f args := by
  rw [action_call, funext (action_eval fuel)]

/-! ## Which calls are made -/

section Calls

variable {x : Recorded α}

theorem calls_bind_of_ok {s : Session} {a : α} (hx : s.result x.action = .ok a)
    (f : α → Recorded β) :
    (x >>= f).calls s = x.calls s ++ (f a).calls (s.after x.action) := by
  show x.calls s ++ (match s.result x.action with
    | .ok a => (f a).calls (s.after x.action)
    | .error _ => []) = _
  rw [hx]

theorem calls_bind_of_error {s : Session} {stop : Stop} (hx : s.result x.action = .error stop)
    (f : α → Recorded β) : (x >>= f).calls s = x.calls s := by
  show x.calls s ++ (match s.result x.action with
    | .ok a => (f a).calls (s.after x.action)
    | .error _ => []) = _
  rw [hx, List.append_nil]

/-- **A silent action** makes no calls. -/
def Silent (x : Recorded α) : Prop := ∀ s, x.calls s = []

theorem Silent.bind {f : α → Recorded β} (hx : x.Silent) (hf : ∀ a, (f a).Silent) :
    (x >>= f).Silent := by
  intro s
  cases hresult : s.result x.action with
  | error stop => rw [calls_bind_of_error hresult f, hx s]
  | ok a => rw [calls_bind_of_ok hresult f, hx s, hf a, List.append_nil]

theorem silent_lift (x : Action α) : (liftM x : Recorded α).Silent := fun _ => rfl

theorem silent_pure (a : α) : (pure a : Recorded α).Silent := fun _ => rfl

theorem silent_evalAll {eval : Evaluator} {es : List Expr} (hes : ∀ e ∈ es, (eval e).Silent) :
    (Action.evalAll eval es).Silent := by
  induction es with
  | nil => exact silent_pure []
  | cons e rest ih =>
    have hrest := ih fun e' he' => hes e' (List.mem_cons_of_mem e he')
    exact (hes e List.mem_cons_self).bind fun _ => hrest.bind fun _ => silent_pure _

theorem silent_eval_zero (e : Expr) : (eval 0 e).Silent := fun _ => rfl

/-- An expression without parts makes no calls. -/
theorem silent_of_leaf {e : Expr} {x : Action Value}
    (he : ∀ eval : Evaluator, Action.step eval e = liftM x) (fuel : Nat) :
    (eval fuel e).Silent := by
  cases fuel with
  | zero => exact silent_eval_zero e
  | succ fuel =>
    rw [eval, Action.eval, he]
    exact silent_lift _

/-- A call of code without calls is the only call. -/
theorem calls_call {s : Session} {id : CallableId} {code : List Expr}
    {captured : List (Option CellId)} {eval : Evaluator} (args : List Value)
    (hid : s.machine.callables[id]? = some ⟨some (.body code), captured⟩)
    (hcode : (Action.evalLast eval code).Silent) :
    (Action.call eval (.function (some id)) args).calls s
      = [⟨s, .function (some id), args,
          s.result (Action.call eval (.function (some id)) args).action,
          s.after (Action.call eval (.function (some id)) args).action⟩] := by
  have hfound : s.result (liftM (Action.callable? (.function (some id))) : Recorded _).action
      = .ok (some ⟨some (.body code), captured⟩) := by
    show Except.ok s.machine.callables[id]? = _
    rw [hid]
  have hbody : (Action.callBody eval (.function (some id)) args).calls s = [] := by
    rw [Action.callBody, calls_bind_of_ok hfound]
    exact hcode _
  show _ :: (Action.callBody eval (.function (some id)) args).calls s = _
  rw [hbody]
  rfl

end Calls

end Recorded

end ValueRuntime
