import ValueRuntime.Proofs.Machine.Run

/-! # Plain and quiet actions

    A *plain* action knows nothing of the running frame and changes nothing but the heap and the
    output. It is built from a few kinds of steps, so what holds of each of these steps and of
    sequences holds of all plain actions. All primitives are plain except the one that sets a
    global.

    The *scope* of a machine is what code can refer to by a name or a capture: the cells, the
    callables, the globals, and the captured and local cells of the running code. An action is
    *quiet* if it leaves the scope as it is. Plain actions are quiet, and so are those that only
    look at the frame.
-/

namespace ValueRuntime

/-! ## Plain actions -/

/-- **A plain action** reads the machine without its frame, and changes only the heap and what
    was written. -/
inductive Action.Plain : {α : Type} → Action α → Prop where
  | pure {α : Type} (a : α) : Plain (Pure.pure a)
  | throw {α : Type} (stop : Stop) : Plain (MonadExcept.throw stop : Action α)
  | bind {α β : Type} {x : Action α} {f : α → Action β} (first : Plain x)
      (rest : ∀ a, Plain (f a)) : Plain (x >>= f)
  /-- What comes next may depend on the machine, but not on its frame. -/
  | get {β : Type} {f : Machine → Action β}
      (frameless : ∀ (m : Machine) (frame : Frame), f { m with frame := frame } = f m)
      (rest : ∀ m, Plain (f m)) : Plain (MonadState.get >>= f)
  | onHeap {α : Type} (step : Heap → α × Heap) : Plain (Action.onHeap step)
  /-- An attempt to write is counted. -/
  | count : Plain (modify fun m => { m with prints := m.prints + 1 })
  | write (text : Bytes) :
      Plain (modify fun m => if m.writable then { m with lines := text :: m.lines } else m)

namespace Action.Plain

variable {α β : Type}

/-- An action that only reads. -/
theorem read {f : Machine → α}
    (frameless : ∀ (m : Machine) (frame : Frame), f { m with frame := frame } = f m) :
    Plain (do return f (← MonadState.get)) :=
  get (fun m frame => congrArg Pure.pure (frameless m frame)) fun _ => pure _

theorem view (v : Value) : Plain (Action.view v) := read fun _ _ => rfl

theorem ofFault (found : Except Fault α) : Plain (Action.ofFault found) := by
  cases found with
  | ok a => exact pure a
  | error fault => exact throw _

theorem newList (values : List Value) : Plain (Action.newList values) := onHeap _

theorem newNameList (names : List Bytes) : Plain (Action.newNameList names) := newList _

theorem tryHeap (step : Heap → Except Fault (α × Heap)) : Plain (Action.tryHeap step) :=
  get (fun _ _ => rfl) fun _ => bind (ofFault _) fun made =>
    bind (onHeap fun _ => ((), made.2)) fun _ => pure _

theorem print (v : Value) : Plain (Action.print v) :=
  bind count fun _ => bind (view v) fun _ => bind (ofFault _) fun text => write text

theorem readCell (cell : Option CellId) : Plain (Action.readCell cell) := read fun _ _ => rfl

theorem callable? (v : Value) : Plain (Action.callable? v) := by
  unfold Action.callable?
  split
  · exact read fun _ _ => rfl
  · exact pure _

theorem listNode? (v : Value) : Plain (Action.listNode? v) := by
  unfold Action.listNode?
  split
  · exact read fun _ _ => rfl
  · exact pure _

theorem iteratorLength (it : Iterator) : Plain (Action.iteratorLength it) := by
  unfold Action.iteratorLength
  split
  · exact pure _
  · exact read fun _ _ => rfl
  · exact read fun _ _ => rfl
  · exact pure _

theorem iteratorValue (it : Iterator) : Plain (Action.iteratorValue it) := by
  unfold Action.iteratorValue
  split
  · exact pure _
  · exact read fun _ _ => rfl
  · refine get (fun _ _ => rfl) fun m => ?_
    split
    · exact pure _
    · exact bind (ofFault _) fun _ => onHeap _
  · exact pure _

/-! ### Primitives -/

/-- The value under a key, read off the present heap. -/
theorem lookup (id : NodeId) (key : Value) :
    Plain (do Action.ofFault ((← MonadState.get).heap.lookup id key)) :=
  get (fun _ _ => rfl) fun _ => ofFault _

theorem subscript (receiver index : Value) : Plain (Action.subscript receiver index) := by
  unfold Action.subscript
  split
  · exact lookup _ _
  · exact read fun _ _ => rfl
  · exact pure _

theorem setSubscript (receiver index v : Value) :
    Plain (Action.setSubscript receiver index v) := by
  unfold Action.setSubscript
  split
  · exact bind (tryHeap _) fun _ => lookup _ _
  · split
    · exact pure _
    · exact bind (onHeap _) fun _ => read fun _ _ => rfl
  · exact pure _

theorem roundtrip (v : Value) : Plain (Action.roundtrip v) := by
  refine bind (view v) fun d => ?_
  split
  · exact throw _
  · exact throw _
  · split
    · exact throw _
    · exact throw _
    · exact onHeap _

theorem wrapTimes (wrapping : Wrapping) (count : Nat) (v : Value) :
    Plain (Action.wrapTimes wrapping count v) := by
  unfold Action.wrapTimes
  split
  · exact pure _
  · exact bind (view v) fun _ => onHeap _

/-- **All primitives are plain** except the one that sets a global. -/
theorem perform {primitive : Primitive} (hp : primitive ≠ .setGlobal) (a b c : Value) :
    Plain (Action.perform primitive a b c) := by
  -- First those that are a sequence of plain steps as they stand, then those that look at an
  -- argument before they do anything.
  cases primitive with
  | setGlobal => exact absurd rfl hp
  | operator op =>
    exact bind (view a) fun _ => bind (view b) fun _ => bind (ofFault _) fun _ => onHeap _
  | unary op => exact bind (view a) fun _ => bind (ofFault _) fun _ => onHeap _
  | subscript => exact subscript a b
  | setSubscript => exact setSubscript a b c
  | roundtrip => exact roundtrip a
  | isTruthy => exact bind (view a) fun _ => pure _
  | hasPayload => exact bind (view a) fun _ => onHeap _
  | range => exact bind (view a) fun _ => bind (view b) fun _ => bind (view c) fun _ => onHeap _
  | listLength => exact bind (listNode? a) fun _ => pure _
  | listCapacity => exact bind (listNode? a) fun _ => pure _
  | listValues => exact bind (listNode? a) fun _ => onHeap _
  | objectOf => exact bind (listNode? a) fun _ => bind (listNode? b) fun _ => tryHeap _
  | captureCount => exact bind (callable? a) fun _ => pure _
  | print => exact bind (print a) fun _ => pure _
  | globalNames => exact get (fun _ _ => rfl) fun m => newNameList m.globals.names
  | stats => exact get (fun _ _ => rfl) fun _ => newList _
  | lookupGlobal => exact get (fun _ _ => rfl) fun _ => readCell _
  | hasGlobal | runtimeName => exact read fun _ _ => rfl
  | copy => exact onHeap (·.copy a)
  | newList => exact newList []
  | builtinNames => exact newNameList _
  | bareList | newObject | bareObject => exact bind (onHeap _) fun _ => pure _
  | isNil | asBoolean | asString | bareFunction | builtin => exact pure _
  | dot | lookup =>
    simp only [Action.perform]
    split
    · exact lookup _ _
    · exact pure _
  | append =>
    simp only [Action.perform]
    split
    · refine get (fun _ _ => rfl) fun m => ?_
      split
      · exact throw _
      · exact bind (onHeap _) fun _ => pure _
    · exact throw _
  | store =>
    simp only [Action.perform]
    split
    · exact bind (tryHeap _) fun _ => pure _
    · exact throw _
  | asNumber | wrapFunction =>
    simp only [Action.perform]
    split <;> exact pure _
  | listItem | objectLength | hasKey =>
    simp only [Action.perform]
    split
    · exact read fun _ _ => rfl
    · exact pure _
  | keys =>
    simp only [Action.perform, Action.keysOf]
    split
    · exact onHeap _
    · exact pure _
  | objectKeys =>
    simp only [Action.perform]
    split <;> exact onHeap _
  | wrapList =>
    simp only [Action.perform]
    split
    · exact pure _
    · exact onHeap _
  | wrapObject =>
    simp only [Action.perform]
    split
    · exact pure _
    · exact bind (onHeap _) fun _ => pure _
  | replaceItem =>
    simp only [Action.perform]
    split
    · exact bind (onHeap _) fun _ => pure _
    · exact pure _

end Action.Plain

/-! ## Quiet actions -/

/-- What code refers to by names and captures. -/
structure Scope where
  cells : Array Value
  callables : Array Callable
  globals : NameTable CellId
  captured : List (Option CellId)
  locals : List (Bytes × CellId)

/-- The scope of a machine. -/
def Machine.scope (m : Machine) : Scope :=
  ⟨m.cells, m.callables, m.globals, m.frame.captured, m.frame.locals⟩

/-- **A quiet action** leaves the scope as it is. -/
def Action.Quiet {α : Type} (x : Action α) : Prop :=
  ∀ s : Session, (s.after x).machine.scope = s.machine.scope

namespace Action.Quiet

variable {α β : Type} {x : Action α} {f : α → Action β}

theorem pure (a : α) : Quiet (Pure.pure a) := fun _ => rfl

theorem bind (hx : Quiet x) (hf : ∀ a, Quiet (f a)) : Quiet (x >>= f) := by
  intro s
  cases hresult : s.result x with
  | error stop =>
    rw [(Session.bind_of_error hresult f).2]
    exact hx s
  | ok a =>
    rw [(Session.bind_of_ok hresult f).2, hf a]
    exact hx s

/-- An action may look at the machine first. -/
theorem get {f : Machine → Action β} (hf : ∀ m, Quiet (f m)) : Quiet (MonadState.get >>= f) :=
  bind (fun _ => rfl) hf

/-- **Plain actions are quiet.** -/
theorem plain (hx : x.Plain) : Quiet x := by
  induction hx with
  | pure a => exact pure a
  | throw stop => exact fun _ => rfl
  | bind _ _ ihx ihf => exact bind ihx ihf
  | get _ _ ih => exact get ih
  | onHeap step => exact fun _ => rfl
  | count => exact fun _ => rfl
  | write text =>
    intro s
    show (if s.machine.writable then _ else _ : Machine).scope = s.machine.scope
    split <;> rfl

theorem hasNext (name : Bytes) : Quiet (Action.hasNext name) := by
  unfold Action.hasNext
  refine get fun m => ?_
  split
  · exact pure _
  · exact bind (plain (.iteratorLength _)) fun _ => pure _

theorem next (name : Bytes) : Quiet (Action.next name) := by
  unfold Action.next
  refine get fun m => ?_
  split
  · exact pure _
  · refine bind (plain (.iteratorLength _)) fun length => ?_
    split
    · exact bind (plain (.iteratorValue _)) fun _ => fun _ => rfl
    · exact pure _

end Action.Quiet

end ValueRuntime
