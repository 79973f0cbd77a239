import ValueRuntime.Machine.State
import ValueRuntime.Proofs.Heap.Change
import ValueRuntime.Proofs.Results

/-! # Sessions

    A session is a machine in the middle of its work: the machine, and the frames of the
    callers of the code that is running. The *slots* of a session are all places where a value
    is stored: items, keys and values in nodes, cells, and the snapshots of iterators. Besides,
    frames *hold* values that nobody copied: arguments, and values that were given a name.

    `Session.Change` says what an operation may do to a session, as `Heap.Change` does for the
    heap. It follows from the change of the heap and from what happens to the slots outside.
-/

namespace ValueRuntime

/-- A machine, and the frames of the callers of the running code, the latest first. -/
structure Session where
  machine : Machine
  callers : List Frame

/-- A place where a value is stored. Frames are counted from the outermost one. -/
inductive Slot where
  | inNode (node : NodeId) (place : Place)
  | cell (id : CellId)
  | snapshot (level : Nat) (name : Bytes)
  deriving DecidableEq, Repr

/-- A slot that is not in a node. -/
def Slot.IsOutside : Slot → Prop
  | .inNode _ _ => False
  | _ => True

theorem Slot.inNode_or_isOutside (slot : Slot) :
    (∃ node place, slot = .inNode node place) ∨ slot.IsOutside := by
  cases slot with
  | inNode node place => exact Or.inl ⟨node, place, rfl⟩
  | cell id => exact Or.inr trivial
  | snapshot level name => exact Or.inr trivial

/-- The snapshot that an iterator of a frame reads. -/
def Frame.snapshot? (frame : Frame) (name : Bytes) : Option Value :=
  (frame.iterators.lookup name).map (·.source)

/-- The values that a frame holds without having copied them. -/
def Frame.handles (frame : Frame) : List Value := frame.args ++ frame.held.map (·.2)

namespace Session

variable {s s' : Session} {α β : Type}

/-- A session with a new machine. -/
def new (id name : Bytes) (writable : Bool) : Session := ⟨.new id name writable, []⟩

/-- The heap of the machine. -/
def heap (s : Session) : Heap := s.machine.heap

/-- The frames, the outermost one first. -/
def frames (s : Session) : List Frame := s.callers.reverse ++ [s.machine.frame]

/-- What a slot stores. -/
def at? (s : Session) : Slot → Option Value
  | .inNode node place => s.heap.at? node place
  | .cell id => s.machine.cells[id]?
  | .snapshot level name => (s.frames[level]?).bind (·.snapshot? name)

/-- **A sound session:** its heap is sound, and all stored and held values are valid. -/
structure Sound (s : Session) : Prop where
  heap : s.heap.Sound
  slots : ∀ slot v, s.at? slot = some v → s.heap.Valid v
  handles : ∀ frame ∈ s.frames, ∀ v ∈ frame.handles, s.heap.Valid v

/-- **What an operation may do to a session.** -/
structure Change (s s' : Session) : Prop where
  later : s.heap.Extends s'.heap
  sound : s'.Sound
  /-- What a slot stores was there before or refers to no old node. -/
  kept : ∀ slot v, s'.at? slot = some v →
    s.at? slot = some v ∨ ∀ n : Nat, v.node? = some n → s.heap.nodes.size ≤ n
  /-- No new node is stored in two slots. -/
  once : ∀ slot slot' v w (n : Nat), s'.at? slot = some v → s'.at? slot' = some w →
    v.node? = some n → w.node? = some n → s.heap.nodes.size ≤ n → slot = slot'

/-- What a slot stores exists. -/
theorem Sound.lt_size (hs : s.Sound) {slot : Slot} {v : Value} {n : Nat}
    (hv : s.at? slot = some v) (hn : v.node? = some n) : n < s.heap.nodes.size :=
  (hs.slots slot v hv).lt_size hn

/-- **From the heap to the session.** The root of a change of the heap may be stored in one
    slot outside of the heap; all other slots outside keep what they store or get a scalar. -/
theorem Change.of_heap (root : Value) (hs : s.Sound) (hc : Heap.Change s.heap s'.heap root)
    (target : Slot)
    (hslots : ∀ slot v, slot.IsOutside → s'.at? slot = some v →
      s.at? slot = some v ∨ v.node? = none ∨ (slot = target ∧ v = root))
    (hhandles : ∀ frame ∈ s'.frames, ∀ v ∈ frame.handles, s'.heap.Valid v) :
    Change s s' := by
  -- A slot outside that stores a new node is the target.
  have hnew : ∀ slot v (n : Nat), slot.IsOutside → s'.at? slot = some v → v.node? = some n →
      s.heap.nodes.size ≤ n → slot = target ∧ v = root := by
    intro slot v n hout hv hn hle
    rcases hslots slot v hout hv with hold | hscalar | hroot
    · have := hs.lt_size hold hn
      omega
    · rw [hscalar] at hn
      cases hn
    · exact hroot
  refine ⟨hc.later, ⟨hc.sound, ?_, hhandles⟩, ?_, ?_⟩
  · intro slot v hv
    rcases slot.inNode_or_isOutside with ⟨node, place, rfl⟩ | hout
    · exact hc.sound.stored node place v hv
    · rcases hslots slot v hout hv with hold | hscalar | ⟨-, rfl⟩
      · exact hc.later.valid (hs.slots slot v hold)
      · exact Heap.valid_of_node?_eq_none hscalar
      · exact hc.root_valid
  · intro slot v hv
    rcases slot.inNode_or_isOutside with ⟨node, place, rfl⟩ | hout
    · exact hc.kept node place v hv
    · rcases hslots slot v hout hv with hold | hscalar | ⟨-, rfl⟩
      · exact Or.inl hold
      · refine Or.inr ?_
        intro n hn
        rw [hscalar] at hn
        cases hn
      · exact Or.inr hc.root_new
  · intro slot slot' v w n hv hw hvn hwn hle
    -- The root is stored in no node, so two slots for one new node are both in nodes or both
    -- the target.
    rcases slot.inNode_or_isOutside with ⟨node, place, rfl⟩ | hout
    · rcases slot'.inNode_or_isOutside with ⟨node', place', rfl⟩ | hout'
      · obtain ⟨rfl, rfl⟩ := hc.once node place v node' place' w n hv hw hvn hwn hle
        rfl
      · obtain ⟨-, rfl⟩ := hnew slot' w n hout' hw hwn hle
        exact absurd hvn (hc.root_free n hwn node place v hv)
    · obtain ⟨rfl, rfl⟩ := hnew slot v n hout hv hvn hle
      rcases slot'.inNode_or_isOutside with ⟨node', place', rfl⟩ | hout'
      · exact absurd hwn (hc.root_free n hvn node' place' w hw)
      · rw [(hnew slot' w n hout' hw hwn hle).1]

/-! ## Actions -/

/-- The session after an action. -/
def after (s : Session) (action : Action α) : Session := ⟨(action.run s.machine).2, s.callers⟩

/-- How an action ends. -/
def result (s : Session) (action : Action α) : Except Stop α := (action.run s.machine).1

/-- After an action that stops, nothing else is done. -/
theorem bind_of_error {x : Action α} {stop : Stop} (hx : s.result x = .error stop)
    (f : α → Action β) :
    s.result (x >>= f) = .error stop ∧ s.after (x >>= f) = s.after x := by
  unfold result after
  rw [run_bind_of_error (Prod.ext hx rfl)]
  exact ⟨rfl, rfl⟩

/-- After an action with a result, the rest is done in the session it left. -/
theorem bind_of_ok {x : Action α} {a : α} (hx : s.result x = .ok a) (f : α → Action β) :
    s.result (x >>= f) = (s.after x).result (f a) ∧
      s.after (x >>= f) = (s.after x).after (f a) := by
  unfold result after
  rw [run_bind_of_ok (Prod.ext hx rfl)]
  exact ⟨rfl, rfl⟩

/-- **An action that returns:** it ends with the given value in the given session. -/
def Returns (s : Session) (x : Action α) (a : α) (s' : Session) : Prop :=
  s.result x = .ok a ∧ s.after x = s'

theorem Returns.bind {s s' s'' : Session} {x : Action α} {f : α → Action β}
    {a : α} {b : β} (hx : s.Returns x a s') (hf : s'.Returns (f a) b s'') :
    s.Returns (x >>= f) b s'' := by
  obtain ⟨hresult, rfl⟩ := hx
  obtain ⟨hsame, hafter⟩ := bind_of_ok hresult f
  exact ⟨hsame.trans hf.1, hafter.trans hf.2⟩

/-- Looking at the machine leaves the session as it is. -/
theorem bind_get (f : Machine → Action β) :
    s.result (get >>= f) = s.result (f s.machine) ∧
      s.after (get >>= f) = s.after (f s.machine) :=
  bind_of_ok rfl f

/-- The session with another heap. -/
def withHeap (s : Session) (h : Heap) : Session :=
  { s with machine := { s.machine with heap := h } }

theorem after_onHeap (step : Heap → α × Heap) :
    s.after (Action.onHeap step) = s.withHeap (step s.heap).2 := rfl

theorem result_onHeap (step : Heap → α × Heap) :
    s.result (Action.onHeap step) = .ok (step s.heap).1 := rfl

theorem run_tryHeap (s : Session) (step : Heap → Except Fault (α × Heap)) :
    (Action.tryHeap step).run s.machine
      = (Action.ofFault (step s.heap) >>= fun (a, heap) => do
          modify fun m => { m with heap := heap }
          return a : Action α).run s.machine := rfl

theorem tryHeap_of_ok (step : Heap → Except Fault (α × Heap)) {a : α} {h : Heap}
    (hok : step s.heap = .ok (a, h)) :
    s.after (Action.tryHeap step) = s.withHeap h ∧ s.result (Action.tryHeap step) = .ok a := by
  unfold after result
  rw [run_tryHeap, hok]
  exact ⟨rfl, rfl⟩

/-- A step of the heap that faults leaves the session as it was. -/
theorem tryHeap_of_error (step : Heap → Except Fault (α × Heap)) {f : Fault}
    (herror : step s.heap = .error f) :
    s.after (Action.tryHeap step) = s ∧
      s.result (Action.tryHeap step) = .error (.fault f) := by
  unfold after result
  rw [run_tryHeap, herror]
  exact ⟨rfl, rfl⟩

end Session

end ValueRuntime
