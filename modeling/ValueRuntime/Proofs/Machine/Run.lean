import ValueRuntime.Machine.Eval
import ValueRuntime.Proofs.Datum.Balance
import ValueRuntime.Proofs.Heap.Balance
import ValueRuntime.Proofs.Machine.Session

/-! # Runs of operations

    The operations of a session: making values, storing in containers and cells, naming,
    iterating, and entering and leaving calls. An operation may be given any values that are
    valid at that moment, whoever holds them. A *run* is any sequence of such operations.

    Every operation is a `Session.Change`, so every run from a new machine keeps the session
    sound. An operation keeps the heap balanced unless it is a self-insertion.
-/

namespace ValueRuntime

/-! ## Operations -/

/-- What a new value is made of. -/
inductive Contents where
  /-- The contents of a value. -/
  | value (v : Value)
  /-- A list of the contents of values. -/
  | list (values : List Value)
  /-- The keys of an object. -/
  | keys (id : NodeId)
  /-- The contents of a value in a number of containers. -/
  | wrapped (wrapping : Wrapping) (count : Nat) (v : Value)
  | range (start stop step : Value)
  /-- What bytes encode, if anything. -/
  | decoded (input : Bytes)

namespace Contents

/-- The contents, read off the heap. -/
def datum (h : Heap) : Contents → Datum
  | .value v => h.view v
  | .list values =>
    .list (if values.isEmpty then defaultCapacity else values.length) (values.map h.view)
  | .keys id =>
    match h.object? id with
    | some o => .list o.capacity (o.keys.toList.map h.view)
    | none => .list defaultCapacity []
  | .wrapped wrapping count v => Nat.repeat wrapping.around count (h.view v)
  | .range start stop step => Datum.range (h.view start) (h.view stop) (h.view step)
  | .decoded input => (Codec.decode input).toOption.getD .nil

/-- The values that are read. -/
def handles : Contents → List Value
  | .value v => [v]
  | .list values => values
  | .keys id => [.object id]
  | .wrapped _ _ v => [v]
  | .range start stop step => [start, stop, step]
  | .decoded _ => []

end Contents

/-- A node that holds nothing yet. -/
inductive Blank where
  /-- A list without room. -/
  | list
  | object
  | hollow

/-- The node itself. -/
def Blank.node : Blank → Node
  | .list => .list (.of 0 #[])
  | .object => .object .empty
  | .hollow => .hollow

/-- The value that refers to a blank node. -/
def Blank.handle (id : NodeId) : Blank → Value
  | .list => .list id
  | .object => .object id
  | .hollow => .object id

/-- **An operation** of a session. -/
inductive Operation where
  | build (contents : Contents)
  | blank (kind : Blank)
  | objectOf (keys values : List Value)
  | append (id : NodeId) (v : Value)
  | replaceItem (id : NodeId) (index : Nat) (v : Value)
  | store (id : NodeId) (key v : Value)
  | newCell (v : Value)
  | writeCell (cell : Option CellId) (v : Value)
  | globalCell (name : Bytes)
  | newFunction (entry : Option Entry) (captured : List (Option CellId))
  | print (v : Value)
  | bind (name : Bytes) (cell : CellId)
  | hold (name : Bytes) (v : Value)
  | iterate (name : Bytes) (v : Value)
  | advance (name : Bytes)
  | enter (captured : List (Option CellId)) (args : List Value)
  | leave

/-- The values that an operation is given. -/
def Operation.handles : Operation → List Value
  | .build contents => contents.handles
  | .objectOf keys values => keys ++ values
  | .append id v => [.list id, v]
  | .replaceItem id _ v => [.list id, v]
  | .store id key v => [.object id, key, v]
  | .newCell v => [v]
  | .writeCell _ v => [v]
  | .print v => [v]
  | .hold _ v => [v]
  | .iterate _ v => [v]
  | .enter _ args => args
  | _ => []

namespace Session

/-- The running frame with the next position of an iterator. -/
def advanced (name : Bytes) (frame : Frame) : Frame :=
  match frame.iterators.lookup name with
  | none => frame
  | some it =>
    { frame with
      iterators := named name { it with position := it.position + 1 } frame.iterators }

/-- **The session after an operation.** One that faults leaves the heap as it was. -/
def perform (s : Session) : Operation → Session
  | .build contents => s.withHeap (s.heap.alloc (contents.datum s.heap)).2
  | .blank kind => s.withHeap (s.heap.add kind.node).2
  | .objectOf keys values =>
    match s.heap.objectOf keys values with
    | .ok (_, h) => s.withHeap h
    | .error _ => s
  | .append id v => s.withHeap (s.heap.append id v)
  | .replaceItem id index v => s.withHeap (s.heap.replaceItem id index v).2
  | .store id key v =>
    match s.heap.store id key v with
    | .ok h => s.withHeap h
    | .error _ => s
  | .newCell v => s.after (Action.newCell v)
  | .writeCell cell v => s.after (Action.writeCell cell v)
  | .globalCell name => s.after (Action.globalCell name)
  | .newFunction entry captured => s.after (Action.newFunction entry captured)
  | .print v => s.after (Action.print v)
  | .bind name cell =>
    s.after (Action.modifyFrame fun f => { f with locals := named name cell f.locals })
  | .hold name v => s.after (Action.modifyFrame fun f => { f with held := named name v f.held })
  | .iterate name v =>
    s.after do
      let it ← Action.iterator v
      Action.modifyFrame fun f => { f with iterators := named name it f.iterators }
  | .advance name => s.after (Action.modifyFrame (advanced name))
  | .enter captured args =>
    ⟨{ s.machine with frame := .ofCall captured args }, s.machine.frame :: s.callers⟩
  | .leave =>
    match s.callers with
    | [] => s
    | frame :: rest => ⟨{ s.machine with frame := frame }, rest⟩

end Session

/-- An operation is allowed when all values that it is given are valid. -/
def Operation.Allowed (s : Session) (op : Operation) : Prop :=
  ∀ v ∈ op.handles, s.heap.Valid v

/-- **A run** of allowed operations. -/
inductive Run : Session → List Operation → Session → Prop where
  | done (s : Session) : Run s [] s
  | step {s s' : Session} {op : Operation} {ops : List Operation} (allowed : op.Allowed s)
      (rest : Run (s.perform op) ops s') : Run s (op :: ops) s'

theorem Run.append {s s' s'' : Session} {ops ops' : List Operation} (h₁ : Run s ops s')
    (h₂ : Run s' ops' s'') : Run s (ops ++ ops') s'' := by
  induction h₁ with
  | done s => exact h₂
  | step allowed _ ih => exact .step allowed (ih h₂)

theorem Run.single {s : Session} {op : Operation} (allowed : op.Allowed s) :
    Run s [op] (s.perform op) :=
  .step allowed (.done _)

theorem Blank.change {h : Heap} (hs : h.Sound) (kind : Blank) :
    Heap.Change h (h.add kind.node).2 (kind.handle h.nodes.size) := by
  cases kind with
  | list => exact Heap.Change.add hs (.list (.of 0 #[])) rfl rfl rfl trivial
  | object => exact Heap.Change.add hs (.object .empty) rfl rfl rfl trivial
  | hollow => exact Heap.Change.add hs .hollow rfl rfl rfl trivial

namespace Session

variable {s s' : Session}

/-! ## Changes outside of the heap -/

/-- Held values stay valid while the frames stay as they are. -/
theorem handles_of_frames (hs : s.Sound) (hlater : s.heap.Extends s'.heap)
    (hframes : s'.frames = s.frames) :
    ∀ frame ∈ s'.frames, ∀ v ∈ frame.handles, s'.heap.Valid v := by
  intro frame hframe v hv
  rw [hframes] at hframe
  exact hlater.valid (hs.handles frame hframe v hv)

/-- A change of the heap alone. -/
theorem Change.withHeap {h' : Heap} {root : Value} (hs : s.Sound)
    (hc : Heap.Change s.heap h' root) : Change s (s.withHeap h') := by
  refine Change.of_heap root hs hc (.cell 0) ?_ (handles_of_frames hs hc.later rfl)
  intro slot v hout hv
  cases slot with
  | inNode node place => cases hout
  | cell id => exact Or.inl hv
  | snapshot level name => exact Or.inl hv

/-- Nothing that is stored or held changes. -/
theorem Change.of_same (hs : s.Sound) (hheap : s'.heap = s.heap)
    (hcells : s'.machine.cells = s.machine.cells) (hframes : s'.frames = s.frames) :
    Change s s' := by
  have hc : Heap.Change s.heap s'.heap .nil := by
    rw [hheap]
    exact Heap.Change.refl hs.heap
  refine Change.of_heap .nil hs hc (.cell 0) ?_ (handles_of_frames hs hc.later hframes)
  intro slot v hout hv
  refine Or.inl ?_
  cases slot with
  | inNode node place => cases hout
  | cell id =>
    rw [at?, hcells] at hv
    exact hv
  | snapshot level name =>
    rw [at?, hframes] at hv
    exact hv

/-! ### Cells -/

/-- A copy stored in a cell: the only cell that changes is the target. -/
theorem Change.inCell {v : Value} (hs : s.Sound) (hheap : s'.heap = (s.heap.copy v).2)
    (hframes : s'.frames = s.frames) (target : CellId)
    (hcells : ∀ (id : CellId) w, s'.machine.cells[id]? = some w →
      s.machine.cells[id]? = some w ∨ (id = target ∧ w = (s.heap.copy v).1)) :
    Change s s' := by
  have hc : Heap.Change s.heap s'.heap (s.heap.copy v).1 := by
    rw [hheap]
    exact Heap.Change.copy hs.heap v
  refine Change.of_heap _ hs hc (.cell target) ?_ (handles_of_frames hs hc.later hframes)
  intro slot w hout hw
  cases slot with
  | inNode node place => cases hout
  | cell id =>
    rcases hcells id w hw with hold | ⟨rfl, hroot⟩
    · exact Or.inl hold
    · exact Or.inr (Or.inr ⟨rfl, hroot⟩)
  | snapshot level name =>
    rw [at?, hframes] at hw
    exact Or.inl hw

theorem change_newCell (hs : s.Sound) (v : Value) : Change s (s.after (Action.newCell v)) := by
  refine Change.inCell (v := v) hs rfl rfl s.machine.cells.size ?_
  exact fun id w hw => getElem?_push_cases hw

theorem change_writeCell (hs : s.Sound) (cell : Option CellId) (v : Value) :
    Change s (s.after (Action.writeCell cell v)) := by
  cases cell with
  | none => exact Change.of_same hs rfl rfl rfl
  | some target =>
    refine Change.inCell (v := v) hs rfl rfl target ?_
    exact fun id w hw => (getElem?_setIfInBounds_cases hw).imp_left And.right

/-- The session with one more global, whose cell holds nil. -/
def withGlobal (s : Session) (name : Bytes) : Session :=
  ⟨{ s.machine with
      cells := s.machine.cells.push .nil
      globals := s.machine.globals.insert name s.machine.cells.size }, s.callers⟩

/-- The cell of a global is the one it has, or a new one. -/
theorem globalCell_cases (s : Session) (name : Bytes) :
    (∃ cell, s.machine.globals.find? name = some cell ∧
      s.result (Action.globalCell name) = .ok cell ∧ s.after (Action.globalCell name) = s) ∨
    (s.machine.globals.find? name = none ∧
      s.result (Action.globalCell name) = .ok s.machine.cells.size ∧
        s.after (Action.globalCell name) = s.withGlobal name) := by
  rw [Action.globalCell, (bind_get _).1, (bind_get _).2]
  cases s.machine.globals.find? name with
  | some cell => exact .inl ⟨cell, rfl, rfl, rfl⟩
  | none => exact .inr ⟨rfl, rfl, rfl⟩

theorem after_globalCell (s : Session) (name : Bytes) :
    s.after (Action.globalCell name) = s ∨
      s.after (Action.globalCell name) = s.withGlobal name := by
  rcases s.globalCell_cases name with ⟨_, -, -, hsame⟩ | ⟨-, -, hnew⟩
  · exact .inl hsame
  · exact .inr hnew

theorem heap_globalCell (s : Session) (name : Bytes) :
    (s.after (Action.globalCell name)).heap = s.heap := by
  rcases after_globalCell s name with hsame | hnew
  · rw [hsame]
  · rw [hnew]
    rfl

theorem result_globalCell (s : Session) (name : Bytes) :
    ∃ cell, s.result (Action.globalCell name) = .ok cell := by
  rcases s.globalCell_cases name with ⟨cell, -, hcell, -⟩ | ⟨-, hcell, -⟩
  · exact ⟨cell, hcell⟩
  · exact ⟨_, hcell⟩

theorem change_globalCell (hs : s.Sound) (name : Bytes) :
    Change s (s.after (Action.globalCell name)) := by
  rcases after_globalCell s name with hsame | hnew
  · rw [hsame]
    exact Change.of_same hs rfl rfl rfl
  · rw [hnew]
    refine Change.of_heap .nil hs (Heap.Change.refl hs.heap) (.cell 0) ?_
      (handles_of_frames hs (Heap.Extends.refl _) rfl)
    intro slot v hout hv
    cases slot with
    | inNode node place => cases hout
    | cell id =>
      rcases getElem?_push_cases hv with hold | ⟨-, rfl⟩
      · exact Or.inl hold
      · exact Or.inr (Or.inl rfl)
    | snapshot level name => exact Or.inl hv

/-! ### Output -/

/-- Printing counts, and may write a line. -/
theorem exists_lines_after_print (s : Session) (v : Value) :
    ∃ lines, s.after (Action.print v)
      = ⟨{ s.machine with prints := s.machine.prints + 1, lines := lines }, s.callers⟩ := by
  let counted : Session := ⟨{ s.machine with prints := s.machine.prints + 1 }, s.callers⟩
  have hview : s.after (Action.print v) = counted.after (do
      let text ← Action.ofFault (s.heap.view v).text
      modify fun m => if m.writable then { m with lines := text :: m.lines } else m) := rfl
  rw [hview]
  cases (s.heap.view v).text with
  | error fault => exact ⟨s.machine.lines, rfl⟩
  | ok text =>
    have hlines : counted.after (do
        let text ← Action.ofFault (.ok text)
        modify fun m => if m.writable then { m with lines := text :: m.lines } else m)
        = ⟨if counted.machine.writable then
            { counted.machine with lines := text :: counted.machine.lines }
          else counted.machine, s.callers⟩ := rfl
    rw [hlines]
    split
    · exact ⟨text :: s.machine.lines, rfl⟩
    · exact ⟨s.machine.lines, rfl⟩

/-- Printing leaves the heap, the cells and the frames alone. -/
theorem after_print (s : Session) (v : Value) :
    (s.after (Action.print v)).heap = s.heap ∧
      (s.after (Action.print v)).machine.cells = s.machine.cells ∧
        (s.after (Action.print v)).frames = s.frames := by
  obtain ⟨lines, hafter⟩ := exists_lines_after_print s v
  rw [hafter]
  exact ⟨rfl, rfl, rfl⟩

/-! ### Frames -/

theorem mem_named {α : Type} {name : Bytes} {a b : α} {names : List (Bytes × α)}
    {other : Bytes} (hmem : (other, b) ∈ named name a names) :
    b = a ∨ (other, b) ∈ names := by
  unfold named at hmem
  rcases List.mem_cons.mp hmem with heq | hin
  · cases heq
    exact Or.inl rfl
  · exact Or.inr (List.mem_filter.mp hin).1

theorem lookup_filter_ne {α : Type} {name other : Bytes} (hne : other ≠ name)
    (names : List (Bytes × α)) :
    (names.filter (·.1 != name)).lookup other = names.lookup other := by
  induction names with
  | nil => rfl
  | cons entry rest ih =>
    obtain ⟨key, a⟩ := entry
    by_cases hkey : key = name
    · subst hkey
      rw [List.filter_cons_of_neg (by simp), ih, List.lookup_cons]
      have hbeq : (other == key) = false := beq_eq_false_iff_ne.mpr hne
      rw [hbeq]
    · rw [List.filter_cons_of_pos (by simpa using hkey), List.lookup_cons, List.lookup_cons, ih]

/-- A name is given one meaning, and all others keep theirs. -/
theorem lookup_named {α : Type} (name other : Bytes) (a : α) (names : List (Bytes × α)) :
    (named name a names).lookup other = if other = name then some a else names.lookup other := by
  unfold named
  rw [List.lookup_cons]
  by_cases hname : other = name
  · subst hname
    rw [if_pos rfl, beq_self_eq_true]
  · have hbeq : (other == name) = false := beq_eq_false_iff_ne.mpr hname
    rw [if_neg hname, hbeq]
    exact lookup_filter_ne hname names

/-- The snapshots of the running frame stand above those of its callers. -/
theorem at?_snapshot (s : Session) (level : Nat) (name : Bytes) :
    s.at? (.snapshot level name) =
      if level = s.callers.length then s.machine.frame.snapshot? name
      else (s.callers.reverse[level]?).bind (·.snapshot? name) := by
  show ((s.callers.reverse ++ [s.machine.frame])[level]?).bind (·.snapshot? name) = _
  by_cases hlevel : level = s.callers.length
  · subst hlevel
    rw [if_pos rfl, List.getElem?_append_right (Nat.le_of_eq List.length_reverse),
      List.length_reverse, Nat.sub_self]
    rfl
  · rw [if_neg hlevel]
    rcases Nat.lt_or_ge level s.callers.length with hlt | hge
    · rw [List.getElem?_append_left (by rw [List.length_reverse]; exact hlt)]
    · have hnone : s.callers.reverse[level]? = none :=
        List.getElem?_eq_none (by rw [List.length_reverse]; exact hge)
      rw [hnone, List.getElem?_append_right (by rw [List.length_reverse]; exact hge),
        List.length_reverse, List.getElem?_eq_none]
      simp only [List.length_cons, List.length_nil]
      omega

/-- **A change of the running frame** together with a change of the heap. The only snapshot
    that may be new is the one of a name, which then is the root. -/
theorem Change.inRunning {h' : Heap} {root : Value} (frame : Frame) (hs : s.Sound)
    (hc : Heap.Change s.heap h' root) (name : Bytes)
    (hsnapshots : ∀ other v, frame.snapshot? other = some v →
      s.machine.frame.snapshot? other = some v ∨ (other = name ∧ v = root))
    (hhandles : ∀ v ∈ frame.handles, v ∈ s.machine.frame.handles ∨ s.heap.Valid v) :
    Change s ⟨{ s.machine with heap := h', frame := frame }, s.callers⟩ := by
  refine Change.of_heap root hs hc (.snapshot s.callers.length name) ?_ ?_
  · intro slot v hout hv
    cases slot with
    | inNode node place => cases hout
    | cell id => exact Or.inl hv
    | snapshot level other =>
      rw [at?_snapshot] at hv ⊢
      by_cases hlevel : level = s.callers.length
      · rw [if_pos hlevel] at hv ⊢
        rcases hsnapshots other v hv with hold | ⟨rfl, rfl⟩
        · exact Or.inl hold
        · exact Or.inr (Or.inr ⟨by rw [hlevel], rfl⟩)
      · rw [if_neg hlevel] at hv ⊢
        exact Or.inl hv
  · intro other hother v hv
    have hvalid : s.heap.Valid v := by
      rcases List.mem_append.mp hother with hcaller | hrunning
      · exact hs.handles other (List.mem_append_left _ hcaller) v hv
      · rw [List.mem_singleton.mp hrunning] at hv
        rcases hhandles v hv with hold | hvalid
        · exact hs.handles _ (List.mem_append_right _ List.mem_cons_self) v hold
        · exact hvalid
    exact hc.later.valid hvalid

theorem snapshot?_named (frame : Frame) (name other : Bytes) (it : Iterator) :
    Frame.snapshot? { frame with iterators := named name it frame.iterators } other
      = if other = name then some it.source else frame.snapshot? other := by
  unfold Frame.snapshot?
  rw [lookup_named]
  split <;> rfl

theorem change_iterate (hs : s.Sound) (name : Bytes) (v : Value) :
    Change s (s.perform (.iterate name v)) := by
  refine Change.inRunning
    { s.machine.frame with
      iterators := named name ⟨(s.heap.copy v).1, 0⟩ s.machine.frame.iterators }
    hs (Heap.Change.copy hs.heap v) name ?_ (fun w hw => Or.inl hw)
  intro other w hw
  rw [snapshot?_named] at hw
  split at hw
  · next heq =>
    cases hw
    exact Or.inr ⟨heq, rfl⟩
  · exact Or.inl hw

theorem snapshot?_advanced (name : Bytes) (frame : Frame) (other : Bytes) :
    (advanced name frame).snapshot? other = frame.snapshot? other := by
  unfold advanced
  split
  · rfl
  · next it hit =>
    rw [snapshot?_named]
    split
    · next heq =>
      subst heq
      unfold Frame.snapshot?
      rw [hit]
      rfl
    · rfl

theorem handles_advanced (name : Bytes) (frame : Frame) :
    (advanced name frame).handles = frame.handles := by
  unfold advanced
  split <;> rfl

theorem change_advance (hs : s.Sound) (name : Bytes) :
    Change s (s.perform (.advance name)) := by
  refine Change.inRunning (advanced name s.machine.frame) hs
    (Heap.Change.refl hs.heap) name ?_ ?_
  · intro other v hv
    rw [snapshot?_advanced] at hv
    exact Or.inl hv
  · intro v hv
    rw [handles_advanced] at hv
    exact Or.inl hv

theorem change_hold (hs : s.Sound) (name : Bytes) {v : Value} (hv : s.heap.Valid v) :
    Change s (s.perform (.hold name v)) := by
  refine Change.inRunning { s.machine.frame with held := named name v s.machine.frame.held } hs
    (Heap.Change.refl hs.heap) name (fun other w hw => Or.inl hw) ?_
  intro w hw
  rcases List.mem_append.mp hw with harg | hheld
  · exact Or.inl (List.mem_append_left _ harg)
  · obtain ⟨⟨other, w'⟩, hmem, rfl⟩ := List.mem_map.mp hheld
    rcases mem_named hmem with rfl | hold
    · exact Or.inr hv
    · exact Or.inl (List.mem_append_right _ (List.mem_map.mpr ⟨_, hold, rfl⟩))

theorem change_bind (hs : s.Sound) (name : Bytes) (cell : CellId) :
    Change s (s.perform (.bind name cell)) :=
  Change.inRunning { s.machine.frame with locals := named name cell s.machine.frame.locals } hs
    (Heap.Change.refl hs.heap) name (fun _ _ hw => Or.inl hw) (fun _ hw => Or.inl hw)

/-- A call adds a frame. -/
theorem frames_enter (s : Session) (captured : List (Option CellId)) (args : List Value) :
    (s.perform (.enter captured args)).frames = s.frames ++ [.ofCall captured args] := by
  show (s.machine.frame :: s.callers).reverse ++ [.ofCall captured args] = _
  rw [List.reverse_cons]
  rfl

/-- The end of a call drops the running frame, if there is a caller. -/
theorem frames_leave {caller : Frame} {rest : List Frame} (hcallers : s.callers = caller :: rest) :
    s.frames = (s.perform .leave).frames ++ [s.machine.frame] := by
  have hleave : s.perform .leave = ⟨{ s.machine with frame := caller }, rest⟩ := by
    simp only [perform, hcallers]
  rw [hleave]
  unfold frames
  rw [hcallers, List.reverse_cons]

/-- A new frame has no snapshots. -/
theorem change_enter (hs : s.Sound) (captured : List (Option CellId)) {args : List Value}
    (hargs : ∀ v ∈ args, s.heap.Valid v) : Change s (s.perform (.enter captured args)) := by
  have hframes := s.frames_enter captured args
  refine Change.of_heap .nil hs (Heap.Change.refl hs.heap) (.cell 0) ?_ ?_
  · intro slot v hout hv
    cases slot with
    | inNode node place => cases hout
    | cell id => exact Or.inl hv
    | snapshot level name =>
      -- Levels count from the outermost call, and the new frame has no iterator yet.
      refine Or.inl ?_
      have hv' : ((s.frames ++ [.ofCall captured args])[level]?).bind (·.snapshot? name)
          = some v := by
        rw [← hframes]
        exact hv
      rcases Nat.lt_or_ge level s.frames.length with hlt | hge
      · rw [List.getElem?_append_left hlt] at hv'
        exact hv'
      · rw [List.getElem?_append_right hge] at hv'
        obtain ⟨frame, hframe, hsnapshot⟩ := Option.bind_eq_some_iff.mp hv'
        rw [List.mem_singleton.mp (List.mem_of_getElem? hframe)] at hsnapshot
        cases hsnapshot
  · intro frame hframe v hv
    rw [hframes] at hframe
    rcases List.mem_append.mp hframe with hold | hnew
    · exact hs.handles frame hold v hv
    · rw [List.mem_singleton.mp hnew] at hv
      rcases List.mem_append.mp hv with harg | hheld
      · exact hargs v harg
      · cases hheld

/-- Leaving a call drops the frames above the caller. -/
theorem change_leave (hs : s.Sound) : Change s (s.perform .leave) := by
  cases hcallers : s.callers with
  | nil =>
    have hsame : s.perform .leave = s := by
      simp only [perform, hcallers]
    rw [hsame]
    exact Change.of_same hs rfl rfl rfl
  | cons caller rest =>
    have hleave : s.perform .leave = ⟨{ s.machine with frame := caller }, rest⟩ := by
      simp only [perform, hcallers]
    have hframes := frames_leave hcallers
    have hheap : (s.perform .leave).heap = s.heap := by
      rw [hleave]
      rfl
    have hc : Heap.Change s.heap (s.perform .leave).heap .nil := by
      rw [hheap]
      exact Heap.Change.refl hs.heap
    refine Change.of_heap .nil hs hc (.cell 0) ?_ ?_
    · intro slot v hout hv
      refine Or.inl ?_
      cases slot with
      | inNode node place => cases hout
      | cell id =>
        rw [hleave] at hv
        exact hv
      | snapshot level name =>
        obtain ⟨frame, hframe, hsnapshot⟩ := Option.bind_eq_some_iff.mp hv
        have hlt : level < (s.perform .leave).frames.length :=
          (List.getElem?_eq_some_iff.mp hframe).1
        refine Option.bind_eq_some_iff.mpr ⟨frame, ?_, hsnapshot⟩
        rw [hframes, List.getElem?_append_left hlt]
        exact hframe
    · intro frame hframe v hv
      rw [hheap]
      refine hs.handles frame ?_ v hv
      rw [hframes]
      exact List.mem_append_left _ hframe

/-! ## What operations do to the heap -/

/-- **What an operation does to the heap.** Cells and iterators store copies; the operations
    that are not named here leave the heap as it is, and so does one that faults. -/
inductive HeapStep (h : Heap) : Operation → Heap → Prop where
  | same (op : Operation) : HeapStep h op h
  | build (contents : Contents) :
      HeapStep h (.build contents) (h.alloc (contents.datum h)).2
  | blank (kind : Blank) : HeapStep h (.blank kind) (h.add kind.node).2
  | objectOf {keys values : List Value} {v : Value} {h' : Heap}
      (made : h.objectOf keys values = .ok (v, h')) : HeapStep h (.objectOf keys values) h'
  | append (id : NodeId) (v : Value) : HeapStep h (.append id v) (h.append id v)
  | replaceItem (id : NodeId) (index : Nat) (v : Value) :
      HeapStep h (.replaceItem id index v) (h.replaceItem id index v).2
  | store {id : NodeId} {key v : Value} {h' : Heap} (stored : h.store id key v = .ok h') :
      HeapStep h (.store id key v) h'
  | copy {op : Operation} {v : Value} (given : v ∈ op.handles) :
      HeapStep h op (h.copy v).2

theorem heapStep_perform (s : Session) (op : Operation) :
    HeapStep s.heap op (s.perform op).heap := by
  cases op with
  | build contents => exact .build contents
  | blank kind => exact .blank kind
  | objectOf keys values =>
    simp only [perform]
    split
    · next v h hob => exact .objectOf hob
    · exact .same _
  | append id v => exact .append id v
  | replaceItem id index v => exact .replaceItem id index v
  | store id key v =>
    simp only [perform]
    split
    · next h hst => exact .store hst
    · exact .same _
  | newCell v => exact .copy List.mem_cons_self
  | writeCell cell v =>
    cases cell with
    | none => exact .same _
    | some id => exact .copy List.mem_cons_self
  | globalCell name =>
    have hheap : (s.perform (.globalCell name)).heap = s.heap := heap_globalCell s name
    rw [hheap]
    exact .same _
  | print v =>
    have hheap : (s.perform (.print v)).heap = s.heap := (after_print s v).1
    rw [hheap]
    exact .same _
  | iterate name v => exact .copy List.mem_cons_self
  | leave =>
    simp only [perform]
    split <;> exact .same _
  | _ => exact .same _

/-! ## Every operation is a change -/

/-- **What one operation does.** -/
theorem Change.perform {op : Operation} (hs : s.Sound) (hop : op.Allowed s) :
    Change s (s.perform op) := by
  cases op with
  | build contents => exact Change.withHeap hs (Heap.Change.alloc hs.heap _)
  | blank kind => exact Change.withHeap hs (kind.change hs.heap)
  | objectOf keys values =>
    simp only [Session.perform]
    split
    · next v h hob => exact Change.withHeap hs (Heap.Change.objectOf hs.heap hob)
    · exact Change.of_same hs rfl rfl rfl
  | append id v =>
    exact Change.withHeap hs (Heap.Change.append hs.heap (hop _ List.mem_cons_self) v)
  | replaceItem id index v => exact Change.withHeap hs (Heap.Change.replaceItem hs.heap id index v)
  | store id key v =>
    simp only [Session.perform]
    split
    · next h hst => exact Change.withHeap hs (Heap.Change.store hs.heap hst)
    · exact Change.of_same hs rfl rfl rfl
  | newCell v => exact change_newCell hs v
  | writeCell cell v => exact change_writeCell hs cell v
  | globalCell name => exact change_globalCell hs name
  | newFunction entry captured => exact Change.of_same hs rfl rfl rfl
  | print v =>
    obtain ⟨hheap, hcells, hframes⟩ := after_print s v
    exact Change.of_same hs hheap hcells hframes
  | bind name cell => exact change_bind hs name cell
  | hold name v => exact change_hold hs name (hop v List.mem_cons_self)
  | iterate name v => exact change_iterate hs name v
  | advance name => exact change_advance hs name
  | enter captured args => exact change_enter hs captured hop
  | leave => exact change_leave hs

/-! ## Runs -/

theorem sound_new (id name : Bytes) (writable : Bool) : (Session.new id name writable).Sound where
  heap := Heap.sound_empty
  slots := by
    intro slot v hv
    cases slot with
    | inNode node place => exact Heap.sound_empty.stored node place v hv
    | cell cell =>
      simp only [at?, Session.new, Machine.new, List.getElem?_toArray, List.getElem?_nil,
        reduceCtorEq] at hv
    | snapshot level other =>
      obtain ⟨frame, hframe, hsnapshot⟩ := Option.bind_eq_some_iff.mp hv
      rw [List.mem_singleton.mp (List.mem_of_getElem? hframe)] at hsnapshot
      cases hsnapshot
  handles := by
    intro frame hframe v hv
    rw [List.mem_singleton.mp hframe] at hv
    cases hv

end Session

variable {s s' : Session} {ops : List Operation}

/-- **A run keeps a session sound.** -/
theorem Run.sound (hrun : Run s ops s') (hs : s.Sound) : s'.Sound := by
  induction hrun with
  | done s => exact hs
  | step allowed _ ih => exact ih (Session.Change.perform hs allowed).sound

/-- Nodes are only added and only grow in a run. -/
theorem Run.extends (hrun : Run s ops s') (hs : s.Sound) : s.heap.Extends s'.heap := by
  induction hrun with
  | done s => exact Heap.Extends.refl _
  | step allowed _ ih =>
    have hstep := Session.Change.perform hs allowed
    exact hstep.later.trans (ih hstep.sound)

/-! ## Self-insertions -/

/-- **A self-insertion:** under a new key, an object is given a value that reaches it. -/
def Operation.SelfInserts (s : Session) : Operation → Prop
  | .store id key v => s.heap.SelfInsertion id key v
  | _ => False

/-- A run of operations with a self-insertion in it. -/
def SelfInserting : Session → List Operation → Prop
  | _, [] => False
  | s, op :: ops => op.SelfInserts s ∨ SelfInserting (s.perform op) ops

theorem not_selfInserting_of_forall (hops : ∀ op ∈ ops, ∀ s, ¬Operation.SelfInserts s op)
    (s : Session) : ¬SelfInserting s ops := by
  induction ops generalizing s with
  | nil => exact id
  | cons op rest ih =>
    rintro (hself | hrest)
    · exact hops op List.mem_cons_self s hself
    · exact ih (fun op hop => hops op (List.mem_cons_of_mem _ hop)) (s.perform op) hrest

end ValueRuntime
