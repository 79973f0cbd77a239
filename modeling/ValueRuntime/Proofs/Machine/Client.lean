import ValueRuntime.Proofs.Machine.Run

/-! # Clients

    A run says which operations are performed, and lets an operation have any valid value. Code
    does not come by values like that. It *has* the containers that operations handed out to it,
    and the ones it read in cells, in iterators and in containers that it has. What it stores is
    copied, so it has no way into the copy unless it reads it.

    A `Client` is a session with the values that somebody has got hold of there. Its *moves* are
    operations, readings, and being shown a key: whoever walks through the pairs of an object is
    handed each key itself and not a copy. The moves of a client are a run.
-/

namespace ValueRuntime

/-- A session, and what somebody working in it has got hold of. -/
structure Client where
  session : Session
  /-- The values that were handed out or read. -/
  handles : List Value
  /-- Of these, the keys that were shown on a walk through an object. -/
  lent : List Value

/-! ## What operations need and hand out -/

/-- The values that an operation changes or passes on to a frame. All others that it is given it
    only reads and copies. -/
def Operation.uses : Operation → List Value
  | .append id _ => [.list id]
  | .replaceItem id _ _ => [.list id]
  | .store id _ _ => [.object id]
  | .hold _ v => [v]
  | .enter _ args => args
  | _ => []

/-- Only a store in an object can be a self-insertion. -/
theorem Operation.not_selfInserts_of_uses {op : Operation} (huses : op.uses = []) (s : Session) :
    ¬op.SelfInserts s := by
  cases op with
  | store id key v => cases huses
  | _ => exact id

/-- The new container that an operation hands out, or nil. -/
def Operation.result (s : Session) : Operation → Value
  | .build contents => (s.heap.alloc (contents.datum s.heap)).1
  | .blank kind => kind.handle s.heap.nodes.size
  | .objectOf keys values =>
    match s.heap.objectOf keys values with
    | .ok (v, _) => v
    | .error _ => .nil
  | _ => .nil

/-- What an operation hands out is new and stored nowhere. -/
theorem Operation.result_cases {s : Session} (hs : s.Sound) (op : Operation) :
    op.result s = .nil ∨ Heap.Change s.heap (s.perform op).heap (op.result s) := by
  cases op with
  | build contents => exact .inr (Heap.Change.alloc hs.heap _)
  | blank kind => exact .inr (kind.change hs.heap)
  | objectOf keys values =>
    simp only [Operation.result, Session.perform]
    cases hob : s.heap.objectOf keys values with
    | ok made => exact .inr (Heap.Change.objectOf hs.heap hob)
    | error fault => exact .inl rfl
  | _ => exact .inl rfl

/-- A frame holds what it held, or what the operation passed on to it. -/
theorem Session.mem_handles_perform {s : Session} {op : Operation} {frame : Frame} {v : Value}
    (hframe : frame ∈ (s.perform op).frames) (hv : v ∈ frame.handles) :
    (∃ before ∈ s.frames, v ∈ before.handles) ∨ v ∈ op.uses := by
  -- Most operations leave the frames alone, and the others change the running one.
  have hsame : (s.perform op).frames = s.frames →
      (∃ before ∈ s.frames, v ∈ before.handles) ∨ v ∈ op.uses := by
    intro hframes
    rw [hframes] at hframe
    exact .inl ⟨frame, hframe, hv⟩
  have hrunning : ∀ running : Frame, (s.perform op).frames = s.callers.reverse ++ [running] →
      (∀ w ∈ running.handles, w ∈ s.machine.frame.handles ∨ w ∈ op.uses) →
      (∃ before ∈ s.frames, v ∈ before.handles) ∨ v ∈ op.uses := by
    intro running hframes hhandles
    rw [hframes] at hframe
    rcases List.mem_append.mp hframe with hcaller | hlast
    · exact .inl ⟨frame, List.mem_append_left _ hcaller, hv⟩
    · rw [List.mem_singleton.mp hlast] at hv
      refine (hhandles v hv).imp ?_ id
      exact fun hold => ⟨s.machine.frame, List.mem_append_right _ List.mem_cons_self, hold⟩
  cases op with
  | objectOf keys values =>
    apply hsame
    simp only [Session.perform]
    split <;> rfl
  | store id key v =>
    apply hsame
    simp only [Session.perform]
    split <;> rfl
  | writeCell cell v =>
    apply hsame
    cases cell <;> rfl
  | globalCell name =>
    apply hsame
    show (s.after (Action.globalCell name)).frames = s.frames
    rcases Session.after_globalCell s name with hafter | hafter <;> rw [hafter]
    rfl
  | print v => exact hsame (Session.after_print s v).2.2
  | bind name cell => exact hrunning _ rfl fun w hw => .inl hw
  | iterate name v => exact hrunning _ rfl fun w hw => .inl hw
  | advance name =>
    refine hrunning (Session.advanced name s.machine.frame) rfl ?_
    intro w hw
    rw [Session.handles_advanced] at hw
    exact .inl hw
  | hold name u =>
    refine hrunning _ rfl ?_
    intro w hw
    rcases List.mem_append.mp hw with harg | hheld
    · exact .inl (List.mem_append_left _ harg)
    · obtain ⟨⟨other, w'⟩, hmem, rfl⟩ := List.mem_map.mp hheld
      rcases Session.mem_named hmem with rfl | hold
      · exact .inr List.mem_cons_self
      · exact .inl (List.mem_append_right _ (List.mem_map.mpr ⟨_, hold, rfl⟩))
  | enter captured args =>
    rw [Session.frames_enter] at hframe
    rcases List.mem_append.mp hframe with hold | hnew
    · exact .inl ⟨frame, hold, hv⟩
    · rw [List.mem_singleton.mp hnew] at hv
      exact .inr (by simpa [Frame.handles, Frame.ofCall, Operation.uses] using hv)
  | leave =>
    refine .inl ⟨frame, ?_, hv⟩
    cases hcallers : s.callers with
    | nil =>
      simp only [Session.perform, hcallers] at hframe
      exact hframe
    | cons caller rest =>
      rw [Session.frames_leave hcallers]
      exact List.mem_append_left _ hframe
  | _ => exact hsame rfl

namespace Client

/-- The heap of the session. -/
def heap (c : Client) : Heap := c.session.heap

/-- A client that has nothing yet, with a new machine. -/
def new (id name : Bytes) (writable : Bool) : Client := ⟨.new id name writable, [], []⟩

variable {c c' c'' : Client} {v : Value}

/-- **A client has a value** if it has got hold of it. Scalars are there for everybody. -/
def Has (c : Client) (v : Value) : Prop := v.node? = none ∨ v ∈ c.handles

/-- **What a client can read** by reference: what cells and iterators store, and what is in the
    containers that it has, except for the keys of objects. -/
inductive Reads (c : Client) : Value → Prop where
  | outside {slot : Slot} {v : Value} (isOutside : slot.IsOutside)
      (stored : c.session.at? slot = some v) : Reads c v
  | inside {w v : Value} {id : NodeId} {p : Place} (has : c.Has w) (node : w.node? = some id)
      (isNoKey : ∀ index, p ≠ .key index) (stored : c.heap.at? id p = some v) : Reads c v
  /-- A walk still reads the room that a list has left. -/
  | former {w v : Value} {id : NodeId} {node : Node} (has : c.Has w) (refers : w.node? = some id)
      (found : c.heap.nodes[id]? = some node) (left : v ∈ node.former) : Reads c v

end Client

/-! ## Moves -/

/-- **A move** of a client. -/
inductive Move where
  | operate (op : Operation)
  /-- Getting hold of a stored value. -/
  | read (v : Value)
  /-- Being shown a key on a walk through an object. -/
  | lend (key : Value)

/-- The operation of a move. -/
def Move.operation? : Move → Option Operation
  | .operate op => some op
  | _ => none

/-- The client after a move. -/
def Client.play (c : Client) : Move → Client
  | .operate op => ⟨c.session.perform op, op.result c.session :: c.handles, c.lent⟩
  | .read v => { c with handles := v :: c.handles }
  | .lend key => { c with handles := key :: c.handles, lent := key :: c.lent }

/-- **What a client may do.** It must have what an operation changes or passes on; what an
    operation only copies may be any valid value. -/
def Move.Allowed (c : Client) : Move → Prop
  | .operate op => op.Allowed c.session ∧ ∀ v ∈ op.uses, c.Has v
  | .read v => c.Reads v
  | .lend key => ∃ id index, c.Has (.object id) ∧ c.heap.at? id (.key index) = some key

/-- An operation that changes no container and passes nothing on to a frame. -/
theorem Operation.allowed_of_valid {c : Client} {op : Operation}
    (hvalid : ∀ v ∈ op.handles, c.heap.Valid v) (huses : op.uses = []) :
    (Move.operate op).Allowed c := by
  refine ⟨hvalid, ?_⟩
  rw [huses]
  intro v hv
  cases hv

/-- **A play:** a sequence of allowed moves. -/
inductive Play : Client → List Move → Client → Prop where
  | done (c : Client) : Play c [] c
  | step {c c' : Client} {move : Move} {moves : List Move} (allowed : move.Allowed c)
      (rest : Play (c.play move) moves c') : Play c (move :: moves) c'

theorem Play.append {c c' c'' : Client} {moves more : List Move} (h₁ : Play c moves c')
    (h₂ : Play c' more c'') : Play c (moves ++ more) c'' := by
  induction h₁ with
  | done c => exact h₂
  | step allowed _ ih => exact .step allowed (ih h₂)

theorem Play.single {c : Client} {move : Move} (allowed : move.Allowed c) :
    Play c [move] (c.play move) :=
  .step allowed (.done _)

/-- **A play is a run** of its operations. -/
theorem Play.run {c c' : Client} {moves : List Move} (hplay : Play c moves c') :
    Run c.session (moves.filterMap Move.operation?) c'.session := by
  induction hplay with
  | done c => exact .done _
  | @step c c' move moves allowed _ ih =>
    cases move with
    | operate op => exact .step allowed.1 ih
    | read v => exact ih
    | lend key => exact ih

/-! ## Sound clients -/

namespace Client

variable {c c' c'' : Client} {v : Value}

/-- **A sound client:** its session is sound, what it has is valid, and it has what the frames
    hold. -/
structure Sound (c : Client) : Prop where
  session : c.session.Sound
  handles : ∀ v ∈ c.handles, c.heap.Valid v
  frames : ∀ frame ∈ c.session.frames, ∀ v ∈ frame.handles, c.Has v

/-- A later client: nodes were only added and only grew, and nothing that it has was lost. -/
structure Later (c c' : Client) : Prop where
  heap : c.heap.Extends c'.heap
  handles : c.handles ⊆ c'.handles

@[simp] theorem has_nil : c.Has .nil := .inl rfl
@[simp] theorem has_boolean (b : Bool) : c.Has (.boolean b) := .inl rfl
@[simp] theorem has_number (x : Number) : c.Has (.number x) := .inl rfl
@[simp] theorem has_string (s : Bytes) : c.Has (.string s) := .inl rfl
@[simp] theorem has_function (f : Option CallableId) : c.Has (.function f) := .inl rfl

theorem Sound.valid (hs : c.Sound) (hv : c.Has v) : c.heap.Valid v := by
  rcases hv with hscalar | hmem
  · exact Heap.valid_of_node?_eq_none hscalar
  · exact hs.handles v hmem

theorem Later.refl (c : Client) : c.Later c := ⟨Heap.Extends.refl _, fun _ hv => hv⟩

theorem Later.trans (h₁ : c.Later c') (h₂ : c'.Later c'') : c.Later c'' :=
  ⟨h₁.heap.trans h₂.heap, fun _ hv => h₂.handles (h₁.handles hv)⟩

theorem Later.has (hlater : c.Later c') (hv : c.Has v) : c'.Has v :=
  hv.imp id fun hmem => hlater.handles hmem

/-- What a client can read is valid. -/
theorem Reads.valid (hv : c.Reads v) (hs : c.Sound) : c.heap.Valid v := by
  cases hv with
  | outside _ stored => exact hs.session.slots _ v stored
  | inside _ _ _ stored => exact hs.session.heap.stored _ _ v stored
  | former _ _ found left => exact hs.session.heap.former _ _ found v left

theorem later_play (hs : c.Sound) {move : Move} (hmove : move.Allowed c) :
    c.Later (c.play move) := by
  cases move with
  | operate op =>
    exact ⟨(Session.Change.perform hs.session hmove.1).later, List.subset_cons_self _ _⟩
  | read v => exact ⟨Heap.Extends.refl _, List.subset_cons_self _ _⟩
  | lend key => exact ⟨Heap.Extends.refl _, List.subset_cons_self _ _⟩

/-- Getting hold of a valid value. -/
theorem Sound.get (hs : c.Sound) (hv : c.heap.Valid v) (lent : List Value) :
    Sound ⟨c.session, v :: c.handles, lent⟩ where
  session := hs.session
  handles := by
    intro w hw
    rcases List.mem_cons.mp hw with rfl | hold
    · exact hv
    · exact hs.handles w hold
  frames := by
    intro frame hframe w hw
    exact (hs.frames frame hframe w hw).imp id (List.mem_cons_of_mem _)

/-- **A move keeps a client sound.** -/
theorem Sound.play (hs : c.Sound) {move : Move} (hmove : move.Allowed c) :
    (c.play move).Sound := by
  have hlater := later_play hs hmove
  cases move with
  | read v => exact hs.get (hmove.valid hs) _
  | lend key =>
    obtain ⟨id, index, -, hkey⟩ := hmove
    exact hs.get (hs.session.heap.stored id _ key hkey) _
  | operate op =>
    have hc := Session.Change.perform hs.session hmove.1
    refine ⟨hc.sound, ?_, ?_⟩
    · intro v hv
      rcases List.mem_cons.mp hv with rfl | hold
      · rcases op.result_cases hs.session with hnil | hnew
        · rw [hnil]
          exact Heap.valid_nil
        · exact hnew.root_valid
      · exact hlater.heap.valid (hs.handles v hold)
    · intro frame hframe v hv
      rcases Session.mem_handles_perform hframe hv with ⟨before, hbefore, hold⟩ | hused
      · exact hlater.has (hs.frames before hbefore v hold)
      · exact hlater.has (hmove.2 v hused)

end Client

variable {c c' : Client} {moves : List Move}

/-- The client that has what the frames of a session hold. -/
def Client.of (s : Session) : Client := ⟨s, s.frames.flatMap Frame.handles, []⟩

theorem Client.sound_of {s : Session} (hs : s.Sound) : (Client.of s).Sound where
  session := hs
  handles := by
    intro v hv
    obtain ⟨frame, hframe, hmem⟩ := List.mem_flatMap.mp hv
    exact hs.handles frame hframe v hmem
  frames := fun frame hframe v hv => .inr (List.mem_flatMap.mpr ⟨frame, hframe, hv⟩)

/-- **A play keeps a client sound.** -/
theorem Play.sound (hplay : Play c moves c') (hs : c.Sound) : c'.Sound := by
  induction hplay with
  | done c => exact hs
  | step allowed _ ih => exact ih (hs.play allowed)

theorem Play.later (hplay : Play c moves c') (hs : c.Sound) : c.Later c' := by
  induction hplay with
  | done c => exact .refl c
  | step allowed _ ih => exact (Client.later_play hs allowed).trans (ih (hs.play allowed))

/-- **A run that changes no container** and passes nothing on to a frame can be played by every
    client of its session. -/
theorem Run.play {s s' : Session} {ops : List Operation} (hrun : Run s ops s')
    (huses : ∀ op ∈ ops, op.uses = []) (hc : c.session = s) :
    ∃ c', Play c (ops.map .operate) c' ∧ c'.session = s' := by
  induction hrun generalizing c with
  | done s => exact ⟨c, .done c, hc⟩
  | @step s s' op ops allowed _ ih =>
    subst hc
    have hmove : (Move.operate op).Allowed c :=
      Operation.allowed_of_valid allowed (huses op List.mem_cons_self)
    obtain ⟨c', hplay, hsession⟩ := ih (c := c.play (.operate op))
      (fun op hop => huses op (List.mem_cons_of_mem _ hop)) rfl
    exact ⟨c', .step hmove hplay, hsession⟩

theorem Client.sound_new (id name : Bytes) (writable : Bool) :
    (Client.new id name writable).Sound where
  session := Session.sound_new id name writable
  handles := fun v hv => by cases hv
  frames := by
    intro frame hframe v hv
    rw [List.mem_singleton.mp hframe] at hv
    cases hv

end ValueRuntime
