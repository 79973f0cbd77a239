import ValueRuntime.Counter.Program
import ValueRuntime.Proofs.Machine.Calls
import ValueRuntime.Proofs.Machine.Trace

/-! # What the bodies of counters do

    The code of a counter and the code that makes one are run step by step. Adding one makes a
    scalar of any value: a number is counted up, a string gets longer, and everything else
    becomes nil. So only what the initial value is when it is copied matters to a counter.

    `returns_counter` and `returns_makeCounter` say what the calls return and what they leave
    behind. They need a little fuel; with less of it a call changes nothing.
-/

namespace ValueRuntime.Counter

/-! ## Adding one -/

/-- Adding one, as the operator does it. -/
def increment (d : Datum) : Datum :=
  (Operator.add.apply d (.number (.ofNat 1))).toOption.getD .nil

/-- Adding one never fails. -/
theorem apply_add_one (d : Datum) :
    Operator.add.apply d (.number (.ofNat 1)) = .ok (increment d) := by
  cases d <;> rfl

theorem isScalar_increment (d : Datum) : (increment d).IsScalar :=
  Operator.isScalar_apply .add (apply_add_one d)

/-- Adding one to a container gives nil, whatever it holds. -/
theorem increment_view_container (h : Heap) {v : Value} {id : NodeId} (hv : v.node? = some id) :
    increment (h.view v) = .nil := by
  unfold Heap.view
  cases v with
  | list id | object id =>
    cases h.nodes.size with
    | zero => rfl
    | succ depth =>
      rw [Heap.viewWithin]
      split <;> rfl
  | _ => cases hv

/-- What adding one gives does not depend on where a datum is laid out, nor on what becomes of
    that place. -/
theorem increment_view_layout (h : Heap) (base : NodeId) (d : Datum) :
    increment (h.view (Heap.layout base d).result) = increment d := by
  cases d with
  | list capacity items => exact increment_view_container h rfl
  | object capacity keys values => exact increment_view_container h rfl
  | hollow => exact increment_view_container h rfl
  | _ => simp [Heap.layout, Heap.view, Heap.viewWithin]

/-! ## The bodies -/

section Body

variable {s : Session} {cell : CellId} {w : Value}

theorem returns_capture (hframe : s.machine.frame.captured = [some cell]) :
    s.Returns (Action.resolve (.ofCapture 0)) (some cell) s := by
  refine ⟨?_, rfl⟩
  show Except.ok (Action.atIndex? s.machine.frame.captured 0).join = _
  rw [hframe]
  rfl

theorem returns_readCell (hw : s.machine.cells[cell]? = some w) :
    s.Returns (Action.readCell (some cell)) w s := by
  refine ⟨?_, rfl⟩
  show Except.ok ((s.machine.cells[cell]?).getD .nil) = _
  rw [hw]
  rfl

/-- A counter reads its cell. -/
theorem returns_get (hframe : s.machine.frame.captured = [some cell])
    (hw : s.machine.cells[cell]? = some w) (fuel : Nat) :
    s.Returns (Action.eval (fuel + 1) (.get (.ofCapture 0))) w s :=
  (returns_capture hframe).bind (returns_readCell hw)

/-- A counter adds one to what its cell holds. -/
theorem returns_sum (hframe : s.machine.frame.captured = [some cell])
    (hw : s.machine.cells[cell]? = some w) (fuel : Nat) :
    s.Returns
      (Action.eval (fuel + 2) (.apply (.operator .add) [.get (.ofCapture 0), .number (.ofNat 1)]))
      (s.heap.alloc (increment (s.heap.view w))).1
      (s.withHeap (s.heap.alloc (increment (s.heap.view w))).2) := by
  have hargs : s.Returns
      (Action.evalAll (Action.eval (fuel + 1)) [.get (.ofCapture 0), .number (.ofNat 1)])
      [w, .number (.ofNat 1)] s :=
    (returns_get hframe hw fuel).bind (.bind (⟨rfl, rfl⟩ :
      s.Returns (Action.evalAll (Action.eval (fuel + 1)) [.number (.ofNat 1)])
        [.number (.ofNat 1)] s) ⟨rfl, rfl⟩)
  refine hargs.bind ?_
  have hsum : s.Returns (Action.ofFault (Operator.add.apply (s.heap.view w)
      (s.heap.view (.number (.ofNat 1))))) (increment (s.heap.view w)) s := by
    have hone : s.heap.view (.number (.ofNat 1)) = .number (.ofNat 1) := by
      simp [Heap.view, Heap.viewWithin]
    rw [hone, apply_add_one]
    exact ⟨rfl, rfl⟩
  show s.Returns (do Action.alloc (← Action.ofFault (Operator.add.apply (← Action.view w)
    (← Action.view (.number (.ofNat 1)))))) _ _
  exact .bind ⟨rfl, rfl⟩ (.bind ⟨rfl, rfl⟩ (.bind hsum ⟨rfl, rfl⟩))

/-- **The body of a counter** adds one to its cell and returns what the cell then holds. -/
theorem returns_counterBody (hframe : s.machine.frame.captured = [some cell])
    (hw : s.machine.cells[cell]? = some w) (fuel : Nat) :
    ∃ (v : Value) (h : Heap),
      s.Returns (Action.evalLast (Action.eval (fuel + 3)) counterBody) v
        ⟨{ s.machine with heap := h, cells := s.machine.cells.setIfInBounds cell v },
          s.callers⟩ ∧
      ∀ h' : Heap, h'.view v = increment (s.heap.view w) := by
  have hlt : cell < s.machine.cells.size := (Array.getElem?_eq_some_iff.mp hw).choose
  have hscalar := isScalar_increment (s.heap.view w)
  -- The sum is a scalar, and the cell stores a copy of it.
  have hview : (s.heap.alloc (increment (s.heap.view w))).2.view
      (s.heap.alloc (increment (s.heap.view w))).1 = increment (s.heap.view w) :=
    hscalar.view_layout _ _
  let stored := (s.heap.alloc (increment (s.heap.view w))).2.copy
    (s.heap.alloc (increment (s.heap.view w))).1
  have hstored : ∀ h' : Heap, h'.view stored.1 = increment (s.heap.view w) := by
    intro h'
    show h'.view (Heap.layout _ (Heap.view _ _)).result = _
    rw [hview]
    exact hscalar.view_layout h' _
  have hset : (s.machine.cells.setIfInBounds cell stored.1)[cell]? = some stored.1 := by
    rw [Array.getElem?_setIfInBounds_self_of_lt hlt]
  refine ⟨stored.1, stored.2, ?_, hstored⟩
  refine .bind (.bind (returns_capture hframe) (.bind (returns_sum hframe hw fuel)
    (.bind ⟨rfl, rfl⟩ (returns_readCell hset)))) ?_
  refine returns_get ?_ hset (fuel + 2)
  exact hframe

/-- The body of a counter does nothing when there is too little fuel for it. -/
theorem outOfFuel_counterBody {fuel : Nat} (hfuel : fuel < 3) :
    s.result (Action.evalLast (Action.eval fuel) counterBody) = .error .outOfFuel ∧
      s.after (Action.evalLast (Action.eval fuel) counterBody) = s := by
  match fuel, hfuel with
  | 0, _ => exact ⟨rfl, rfl⟩
  | 1, _ => exact ⟨rfl, rfl⟩
  | 2, _ => exact ⟨rfl, rfl⟩

/-- **The body that makes a counter** copies its argument into a new cell and returns a new
    function over this cell. -/
theorem returns_makeCounterBody (fuel : Nat) (captured : List (Option CellId))
    (args : List Value) :
    (s.perform (.enter captured args)).Returns
      (Action.evalLast (Action.eval (fuel + 2)) makeCounterBody)
      (.function (some s.machine.callables.size))
      ⟨{ s.machine with
          heap := (s.heap.copy (args[0]?.getD .nil)).2
          cells := s.machine.cells.push (s.heap.copy (args[0]?.getD .nil)).1
          callables := s.machine.callables.push
            ⟨some (.body counterBody), [some s.machine.cells.size]⟩
          frame := { Frame.ofCall captured args with
            locals := [(utf8 "n", s.machine.cells.size)] } },
        s.machine.frame :: s.callers⟩ := by
  exact ⟨rfl, rfl⟩

theorem outOfFuel_makeCounterBody {fuel : Nat} (hfuel : fuel < 2) :
    s.result (Action.evalLast (Action.eval fuel) makeCounterBody) = .error .outOfFuel := by
  match fuel, hfuel with
  | 0, _ => rfl
  | 1, _ => rfl

end Body

/-! ## Neither body calls anything -/

section Silence

open Recorded (silent_eval_zero silent_lift silent_of_leaf)

theorem silent_sum (fuel : Nat) :
    (Recorded.eval fuel (.apply (.operator .add)
      [.get (.ofCapture 0), .number (.ofNat 1)])).Silent := by
  cases fuel with
  | zero => exact silent_eval_zero _
  | succ fuel =>
    have hargs : (Action.evalAll (Recorded.eval fuel)
        [.get (.ofCapture 0), .number (.ofNat 1)]).Silent := by
      apply Recorded.silent_evalAll
      intro e he
      simp only [List.mem_cons, List.not_mem_nil, or_false] at he
      rcases he with rfl | rfl
      · exact silent_of_leaf (fun _ => rfl) fuel
      · exact silent_of_leaf (fun _ => rfl) fuel
    exact hargs.bind fun _ => silent_lift _

/-- The body of a counter calls nothing. -/
theorem silent_counterBody (fuel : Nat) :
    (Action.evalLast (Recorded.eval fuel) counterBody).Silent := by
  refine .bind ?_ fun _ => silent_of_leaf (fun _ => rfl) fuel
  cases fuel with
  | zero => exact silent_eval_zero _
  | succ fuel =>
    refine .bind (silent_lift _) fun _ => .bind (silent_sum fuel) fun _ => ?_
    exact .bind (silent_lift _) fun _ => silent_lift _

/-- The body that makes a counter calls nothing. -/
theorem silent_makeCounterBody (fuel : Nat) :
    (Action.evalLast (Recorded.eval fuel) makeCounterBody).Silent := by
  refine .bind ?_ fun _ => silent_of_leaf (fun _ => rfl) fuel
  cases fuel with
  | zero => exact silent_eval_zero _
  | succ fuel =>
    have hargument := silent_of_leaf (e := .argument 0) (fun _ => rfl) fuel
    refine hargument.bind fun _ => .bind (silent_lift _) fun _ => ?_
    exact .bind (silent_lift _) fun _ => silent_lift _

end Silence

/-! ## Calls -/

section Call

variable {s : Session} {id : CallableId}

/-- A call runs the code of the function in a frame of its own. -/
theorem call_body {code : List Expr} {captured : List (Option CellId)}
    (hid : s.machine.callables[id]? = some ⟨some (.body code), captured⟩) (ev : Evaluator)
    (args : List Value) :
    s.result (Action.call ev (.function (some id)) args)
        = (s.perform (.enter captured args)).result (Action.evalLast ev code) ∧
      s.after (Action.call ev (.function (some id)) args)
        = ((s.perform (.enter captured args)).after (Action.evalLast ev code)).perform .leave := by
  have hfound : s.result (Action.callable? (.function (some id)))
      = .ok (some ⟨some (.body code), captured⟩) := by
    show Except.ok s.machine.callables[id]? = _
    rw [hid]
  exact Session.bind_of_ok hfound _

/-- **A call of a counter** returns one more than its cell held, and the cell holds that. -/
theorem returns_counter {cell : CellId} {w : Value}
    (hid : s.machine.callables[id]? = some ⟨some (.body counterBody), [some cell]⟩)
    (hw : s.machine.cells[cell]? = some w) (fuel : Nat) (args : List Value) :
    ∃ (v : Value) (h : Heap),
      s.Returns (Action.call (Action.eval (fuel + 3)) (.function (some id)) args) v
        ⟨{ s.machine with heap := h, cells := s.machine.cells.setIfInBounds cell v },
          s.callers⟩ ∧
      ∀ h' : Heap, h'.view v = increment (s.heap.view w) := by
  obtain ⟨hresult, hafter⟩ := call_body hid (Action.eval (fuel + 3)) args
  obtain ⟨v, h, ⟨hbody, hleft⟩, hview⟩ :=
    returns_counterBody (s := s.perform (.enter [some cell] args)) rfl hw fuel
  refine ⟨v, h, ⟨hresult.trans hbody, ?_⟩, hview⟩
  rw [hafter, hleft]
  rfl

/-- A call of a counter that runs out of fuel leaves the session as it was. -/
theorem outOfFuel_counter {captured : List (Option CellId)} {fuel : Nat} (hfuel : fuel < 3)
    (hid : s.machine.callables[id]? = some ⟨some (.body counterBody), captured⟩)
    (args : List Value) :
    s.result (Action.call (Action.eval fuel) (.function (some id)) args) = .error .outOfFuel ∧
      s.after (Action.call (Action.eval fuel) (.function (some id)) args) = s := by
  obtain ⟨hresult, hafter⟩ := call_body hid (Action.eval fuel) args
  obtain ⟨hbody, hleft⟩ :=
    outOfFuel_counterBody (s := s.perform (.enter captured args)) hfuel
  refine ⟨hresult.trans hbody, ?_⟩
  rw [hafter, hleft]
  rfl

/-- **A call that makes a counter** returns a new function over a new cell. -/
theorem returns_makeCounter {captured : List (Option CellId)}
    (hid : s.machine.callables[id]? = some ⟨some (.body makeCounterBody), captured⟩) (fuel : Nat)
    (args : List Value) :
    s.Returns (Action.call (Action.eval (fuel + 2)) (.function (some id)) args)
      (.function (some s.machine.callables.size))
      ⟨{ s.machine with
          heap := (s.heap.copy (args[0]?.getD .nil)).2
          cells := s.machine.cells.push (s.heap.copy (args[0]?.getD .nil)).1
          callables := s.machine.callables.push
            ⟨some (.body counterBody), [some s.machine.cells.size]⟩ },
        s.callers⟩ := by
  obtain ⟨hresult, hafter⟩ := call_body hid (Action.eval (fuel + 2)) args
  obtain ⟨hbody, hleft⟩ := returns_makeCounterBody (s := s) fuel captured args
  refine ⟨hresult.trans hbody, ?_⟩
  rw [hafter, hleft]
  rfl

theorem outOfFuel_makeCounter {captured : List (Option CellId)} {fuel : Nat} (hfuel : fuel < 2)
    (hid : s.machine.callables[id]? = some ⟨some (.body makeCounterBody), captured⟩)
    (args : List Value) :
    s.result (Action.call (Action.eval fuel) (.function (some id)) args)
      = .error .outOfFuel :=
  (call_body hid (Action.eval fuel) args).1.trans (outOfFuel_makeCounterBody hfuel)

end Call

end ValueRuntime.Counter
