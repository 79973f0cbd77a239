import ValueRuntime.Proofs.Machine.Ownership
import ValueRuntime.Proofs.Machine.Quiet

/-! # Hiding an iterator

    An iterator is reached by its name in the running frame and in no other way. An action that
    does not go by that name does the same whether the iterator is there or not: it is *blind* to
    the iterator. Blind are all primitives, every call, since the body of a function runs in a
    frame of its own, and whatever goes by another name.
-/

namespace ValueRuntime

/-- The frame without an iterator. -/
def Frame.hide (name : Bytes) (frame : Frame) : Frame :=
  { frame with iterators := frame.iterators.filter (·.1 != name) }

/-- The machine without an iterator of the running frame. -/
def Machine.hide (name : Bytes) (m : Machine) : Machine := { m with frame := m.frame.hide name }

namespace Session

variable {s : Session} {name : Bytes}

/-- The session without an iterator of the running frame. -/
def hide (name : Bytes) (s : Session) : Session := ⟨s.machine.hide name, s.callers⟩

/-- The iterator that has a name in the running frame. -/
def iterator? (name : Bytes) (s : Session) : Option Iterator :=
  s.machine.frame.iterators.lookup name

/-! ## Sessions without an iterator -/

theorem lookup_filter_self {α : Type} (name : Bytes) (names : List (Bytes × α)) :
    (names.filter (·.1 != name)).lookup name = none := by
  rw [List.lookup_eq_none_iff]
  intro entry hentry
  have hne : entry.1 ≠ name := by simpa using (List.mem_filter.mp hentry).2
  exact bne_iff_ne.mpr hne.symm

theorem snapshot?_of_hide {frame : Frame} {other : Bytes} {v : Value}
    (hv : (frame.hide name).snapshot? other = some v) : frame.snapshot? other = some v := by
  unfold Frame.snapshot? Frame.hide at hv
  unfold Frame.snapshot?
  by_cases hname : other = name
  · rw [hname, lookup_filter_self] at hv
    cases hv
  · rw [lookup_filter_ne hname] at hv
    exact hv

/-- What a session stores without the iterator it stores with the iterator too. -/
theorem at?_of_hide {slot : Slot} {v : Value} (hv : (s.hide name).at? slot = some v) :
    s.at? slot = some v := by
  cases slot with
  | inNode node place => exact hv
  | cell id => exact hv
  | snapshot level other =>
    have hfound : (if level = s.callers.length then (s.machine.frame.hide name).snapshot? other
        else (s.callers.reverse[level]?).bind (·.snapshot? other)) = some v :=
      ((s.hide name).at?_snapshot level other).symm.trans hv
    rw [at?_snapshot]
    by_cases hlevel : level = s.callers.length
    · rw [if_pos hlevel] at hfound ⊢
      exact snapshot?_of_hide hfound
    · rw [if_neg hlevel] at hfound ⊢
      exact hfound

/-- The frames hold the same values without the iterator. -/
theorem exists_frame_of_hide {frame : Frame} (hframe : frame ∈ (s.hide name).frames) :
    ∃ shown ∈ s.frames, shown.handles = frame.handles := by
  rcases List.mem_append.mp hframe with hcaller | hrunning
  · exact ⟨frame, List.mem_append_left _ hcaller, rfl⟩
  · rw [List.mem_singleton.mp hrunning]
    exact ⟨s.machine.frame, List.mem_append_right _ List.mem_cons_self, rfl⟩

theorem Sound.hide (hs : s.Sound) (name : Bytes) : (s.hide name).Sound where
  heap := hs.heap
  slots := fun slot v hv => hs.slots slot v (at?_of_hide hv)
  handles := by
    intro frame hframe v hv
    obtain ⟨shown, hshown, hsame⟩ := exists_frame_of_hide hframe
    rw [← hsame] at hv
    exact hs.handles shown hshown v hv

theorem Unique.hide (hu : s.Unique) (name : Bytes) : (s.hide name).Unique :=
  fun slot slot' v w n hv hw => hu slot slot' v w n (at?_of_hide hv) (at?_of_hide hw)

theorem LeftOwned.hide (hleft : s.LeftOwned) (name : Bytes) : (s.hide name).LeftOwned :=
  fun a v slot w n hv hvn hw => hleft a v slot w n hv hvn (at?_of_hide hw)

/-! ## Naming and hiding -/

/-- A name that is hidden may have any meaning. -/
theorem filter_named_self {α : Type} (name : Bytes) (a : α) (names : List (Bytes × α)) :
    (named name a names).filter (·.1 != name) = names.filter (·.1 != name) := by
  unfold named
  rw [List.filter_cons_of_neg (by simp), List.filter_filter]
  simp

theorem filter_named_ne {α : Type} {name other : Bytes} (hne : other ≠ name) (a : α)
    (names : List (Bytes × α)) :
    (named other a names).filter (·.1 != name) = named other a (names.filter (·.1 != name)) := by
  unfold named
  rw [List.filter_cons_of_pos (by simpa using hne), List.filter_filter, List.filter_filter]
  simp only [Bool.and_comm]

end Session

/-- The client that does not see an iterator. -/
def Client.hide (name : Bytes) (c : Client) : Client := ⟨c.session.hide name, c.handles, c.lent⟩

theorem Client.Sound.hide {c : Client} (hs : c.Sound) (name : Bytes) : (c.hide name).Sound where
  session := hs.session.hide name
  handles := hs.handles
  frames := by
    intro frame hframe v hv
    obtain ⟨shown, hshown, hsame⟩ := Session.exists_frame_of_hide hframe
    rw [← hsame] at hv
    exact hs.frames shown hshown v hv

/-! ## Blind actions -/

/-- **An action that is blind to an iterator:** without the iterator it ends in the same way and
    changes the same, and with the iterator it leaves it as it is. -/
def Action.Blind {α : Type} (name : Bytes) (x : Action α) : Prop :=
  ∀ s : Session, (s.hide name).result x = s.result x ∧
    (s.hide name).after x = (s.after x).hide name ∧
    (s.after x).iterator? name = s.iterator? name

namespace Action.Blind

variable {α β : Type} {name : Bytes} {x : Action α} {f : α → Action β}

theorem pure (a : α) : Blind name (Pure.pure a) := fun _ => ⟨rfl, rfl, rfl⟩

theorem bind (hx : Blind name x) (hf : ∀ a, Blind name (f a)) : Blind name (x >>= f) := by
  intro s
  obtain ⟨hresult, hafter, hiterator⟩ := hx s
  cases hok : s.result x with
  | error stop =>
    obtain ⟨hstop, hsame⟩ := Session.bind_of_error hok f
    obtain ⟨hstop', hsame'⟩ := Session.bind_of_error (hresult.trans hok) f
    rw [hstop, hsame, hstop', hsame']
    exact ⟨rfl, hafter, hiterator⟩
  | ok a =>
    obtain ⟨hend, hrest⟩ := Session.bind_of_ok hok f
    obtain ⟨hend', hrest'⟩ := Session.bind_of_ok (hresult.trans hok) f
    rw [hend, hrest, hend', hrest', hafter]
    obtain ⟨hfa, hfafter, hfiterator⟩ := hf a (s.after x)
    exact ⟨hfa, hfafter, hfiterator.trans hiterator⟩

/-- An action may look at the machine first, as long as it does not look at the iterator. -/
theorem get {f : Machine → Action β} (hsame : ∀ m : Machine, f (m.hide name) = f m)
    (hf : ∀ m, Blind name (f m)) : Blind name (MonadState.get >>= f) := by
  intro s
  obtain ⟨hresult, hafter⟩ := Session.bind_get (s := s) f
  obtain ⟨hresult', hafter'⟩ := Session.bind_get (s := s.hide name) f
  have hmachine : f (s.hide name).machine = f s.machine := hsame s.machine
  rw [hresult, hafter, hresult', hafter', hmachine]
  exact hf s.machine s

theorem modify {change : Machine → Machine}
    (hsame : ∀ m : Machine, change (m.hide name) = (change m).hide name)
    (hiterator : ∀ m : Machine,
      (change m).frame.iterators.lookup name = m.frame.iterators.lookup name) :
    Blind name (modify change : Action Unit) := by
  intro s
  refine ⟨rfl, ?_, hiterator s.machine⟩
  exact congrArg (Session.mk · s.callers) (hsame s.machine)

/-- **Plain actions are blind:** they know nothing of the frame. -/
theorem plain (hx : x.Plain) : Blind name x := by
  induction hx with
  | pure a => exact pure a
  | throw stop => exact fun _ => ⟨rfl, rfl, rfl⟩
  | bind _ _ ihx ihf => exact bind ihx ihf
  | get frameless _ ih => exact get (fun m => frameless m (m.frame.hide name)) ih
  | onHeap step => exact fun _ => ⟨rfl, rfl, rfl⟩
  | count => exact fun _ => ⟨rfl, rfl, rfl⟩
  | write text =>
    apply modify
    · intro m
      show (if m.writable then _ else _) = Machine.hide name (if m.writable then _ else _)
      split <;> rfl
    · intro m
      by_cases hw : m.writable = true
      · rw [if_pos hw]
      · rw [if_neg hw]

/-! ### Cells and functions -/

theorem newCell (v : Value) : Blind name (Action.newCell v) := fun _ => ⟨rfl, rfl, rfl⟩

theorem writeCell (cell : Option CellId) (v : Value) : Blind name (Action.writeCell cell v) := by
  cases cell <;> exact fun _ => ⟨rfl, rfl, rfl⟩

theorem globalCell (global : Bytes) : Blind name (Action.globalCell global) := by
  refine get (fun _ => rfl) fun m => ?_
  split
  · exact pure _
  · exact fun _ => ⟨rfl, rfl, rfl⟩

theorem resolve (ref : CellRef) : Blind name (Action.resolve ref) := by
  cases ref with
  | ofGlobal global => exact bind (globalCell global) fun _ => pure _
  | _ => exact fun _ => ⟨rfl, rfl, rfl⟩

theorem resolveAll (refs : List CellRef) : Blind name (Action.resolveAll refs) := by
  induction refs with
  | nil => exact pure _
  | cons ref rest ih => exact bind (resolve ref) fun _ => bind ih fun _ => pure _

theorem newFunction (entry : Option Entry) (captured : List (Option CellId)) :
    Blind name (Action.newFunction entry captured) :=
  fun _ => ⟨rfl, rfl, rfl⟩

/-- **Primitives are blind:** they do not go by the names of a frame. -/
theorem perform (primitive : Primitive) (a b c : Value) :
    Blind name (Action.perform primitive a b c) := by
  by_cases hp : primitive = .setGlobal
  · subst hp
    exact bind (globalCell _) fun _ => bind (writeCell _ b) fun _ => pure _
  · exact plain (.perform hp a b c)

/-! ### Calls -/

variable {ev : Evaluator}

/-- **What runs in another frame is blind,** whatever it is. -/
theorem inFrame (frame : Frame) (x : Action α) : Blind name (Action.inFrame frame x) :=
  fun _ => ⟨rfl, rfl, rfl⟩

/-- **Calls are blind.** -/
theorem call (g : Value) (args : List Value) : Blind name (Action.call ev g args) := by
  refine bind (plain (.callable? g)) fun found => ?_
  split
  · exact pure _
  · split
    · exact pure _
    · exact perform _ _ _ _
    · exact inFrame _ _

theorem callOnItems (g : Value) (walk : Heap.Walk) (remaining index : Nat) :
    Blind name (Action.callOnItems ev g walk remaining index) := by
  induction remaining generalizing index with
  | zero => exact pure _
  | succ remaining ih =>
    refine get (fun _ => rfl) fun m => bind (call g _) fun result =>
      bind (plain (.view result)) fun d => ?_
    split
    · exact ih (index + 1)
    · exact pure _

theorem callOnPairs (g : Value) (id : NodeId) (index : Nat) (keys : List Value) :
    Blind name (Action.callOnPairs ev g id index keys) := by
  induction keys generalizing index with
  | nil => exact pure _
  | cons key rest ih =>
    refine get (fun _ => rfl) fun m => ?_
    split
    · exact pure _
    · refine bind (plain (.ofFault _)) fun value => bind (call g _) fun result =>
        bind (plain (.view result)) fun d => ?_
      split
      · exact ih (index + 1)
      · exact pure _

theorem runCalling (calling : Calling) (args : List Value) :
    Blind name (Action.runCalling ev calling args) := by
  cases calling with
  | function => exact call _ _
  | eachItem =>
    simp only [Action.runCalling]
    split
    · exact get (fun _ => rfl) fun m => bind (callOnItems _ _ _ _) fun _ => pure _
    · exact pure _
  | eachPair =>
    simp only [Action.runCalling]
    split
    · refine get (fun _ => rfl) fun m => ?_
      split
      · exact plain (.throw _)
      · exact bind (callOnPairs _ _ _ _) fun _ => pure _
    · exact pure _

/-! ### Other names -/

variable {other : Bytes}

/-- Naming another iterator. -/
theorem setIterator (hne : other ≠ name) (it : Iterator) :
    Blind name (Action.modifyFrame fun f => { f with iterators := named other it f.iterators }) := by
  apply modify
  · intro m
    have hnames := Session.filter_named_ne hne it m.frame.iterators
    simp only [Machine.hide, Frame.hide, hnames]
  · intro m
    show (named other it m.frame.iterators).lookup name = _
    rw [Session.lookup_named, if_neg (Ne.symm hne)]

theorem iterate (hne : other ≠ name) (v : Value) : Blind name (do
    let it ← Action.iterator v
    Action.modifyFrame fun f => { f with iterators := named other it f.iterators }
    return Value.nil) :=
  bind (fun _ => ⟨rfl, rfl, rfl⟩) fun it => bind (setIterator hne it) fun _ => pure _

theorem hasNext (hne : other ≠ name) : Blind name (Action.hasNext other) := by
  unfold Action.hasNext
  refine get ?_ fun m => ?_
  · intro m
    simp only [Machine.hide, Frame.hide, Session.lookup_filter_ne hne]
  · split
    · exact pure _
    · exact bind (plain (.iteratorLength _)) fun _ => pure _

theorem next (hne : other ≠ name) : Blind name (Action.next other) := by
  unfold Action.next
  refine get ?_ fun m => ?_
  · intro m
    simp only [Machine.hide, Frame.hide, Session.lookup_filter_ne hne]
  · split
    · exact pure _
    · refine bind (plain (.iteratorLength _)) fun length => ?_
      split
      · exact bind (plain (.iteratorValue _)) fun _ => bind (setIterator hne _) fun _ => pure _
      · exact pure _

end Action.Blind

end ValueRuntime
