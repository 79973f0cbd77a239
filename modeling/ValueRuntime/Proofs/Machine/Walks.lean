import ValueRuntime.Proofs.Machine.Calls
import ValueRuntime.Proofs.Machine.Growth

/-! # Walks over lists that change

    Whoever walks through a list calls a function with each position and item, and that function
    may do anything, also to the list. The walk reads the room that the list was in when the walk
    began. A list leaves its room only when something is appended to it and it is full. So the
    walk meets the present items up to the first such move, and afterwards the items that the
    list had at that move: what is put in their places later is not seen.
-/

namespace ValueRuntime

/-! ## Moves of a list -/

/-- **An operation moves a list** if it appends to the list and finds it full. -/
def Operation.MovesList (s : Session) (id : NodeId) : Operation → Prop
  | .append id' _ => id' = id ∧ ∃ l, s.heap.list? id = some l ∧ l.capacity ≤ l.items.size
  | _ => False

/-- A run of operations one of which moves the list. -/
def MovesList (id : NodeId) : Session → List Operation → Prop
  | _, [] => False
  | s, op :: ops => op.MovesList s id ∨ MovesList id (s.perform op) ops

/-- **The first move** of a list in a run: the session right before it. -/
def FirstMove (id : NodeId) (s : Session) (ops : List Operation) (s₁ : Session) : Prop :=
  ∃ before op after, ops = before ++ op :: after ∧ Run s before s₁ ∧ ¬MovesList id s before ∧
    op.MovesList s₁ id

section Moves

variable {s s' s₁ : Session} {op : Operation} {ops : List Operation} {id : NodeId} {l : ListNode}

/-- **The rooms of a list after one operation:** there is one more exactly if it was moved. -/
theorem Session.former_perform (hs : s.Sound) (hop : op.Allowed s)
    (hl : s.heap.list? id = some l) :
    ∃ l', (s.perform op).heap.list? id = some l' ∧
      (op.MovesList s id ∧ l'.former = l.former.push l.items ∨
        ¬op.MovesList s id ∧ l'.former = l.former) := by
  obtain ⟨l', hl', hstep⟩ := listStep_perform hs hop hl
  refine ⟨l', hl', ?_⟩
  cases hstep with
  | appended copy =>
    by_cases hroom : l.items.size < l.capacity
    · refine .inr ⟨?_, ?_⟩
      · rintro ⟨-, l₁, hl₁, hfull⟩
        rw [hl] at hl₁
        cases hl₁
        omega
      · simp only [ListNode.push, ListNode.grown, if_pos hroom]
    · refine .inl ⟨⟨rfl, l, hl, Nat.not_lt.mp hroom⟩, ?_⟩
      simp only [ListNode.push, ListNode.grown, if_neg hroom]
  | replaced inside copy => exact .inr ⟨not_false, rfl⟩
  | kept noAppend outside =>
    refine .inr ⟨?_, rfl⟩
    cases op with
    | append id' v => exact fun hmoves => beq_eq_false_iff_ne.mp noAppend hmoves.1
    | _ => exact not_false

/-- Rooms that a list has left are kept. -/
theorem Run.former (hrun : Run s ops s') (hs : s.Sound) (hl : s.heap.list? id = some l) :
    ∃ l', s'.heap.list? id = some l' ∧
      ∀ (k : Nat) room, l.former[k]? = some room → l'.former[k]? = some room := by
  induction hrun generalizing l with
  | done s => exact ⟨l, hl, fun k room hroom => hroom⟩
  | @step s s' op ops allowed _ ih =>
    obtain ⟨l₁, hl₁, hformer⟩ := Session.former_perform hs allowed hl
    obtain ⟨l', hl', hkept⟩ := ih (Session.Change.perform hs allowed).sound hl₁
    refine ⟨l', hl', fun k room hroom => hkept k room ?_⟩
    rcases hformer with ⟨-, hpushed⟩ | ⟨-, hsame⟩
    · obtain ⟨hlt, -⟩ := Array.getElem?_eq_some_iff.mp hroom
      rw [hpushed, Array.getElem?_push_lt hlt, ← Array.getElem?_eq_getElem hlt]
      exact hroom
    · rw [hsame]
      exact hroom

/-- **The room that a list was in when a run began:** it is still there, or it left with the
    items that it had right before the first move. -/
theorem Run.room (hrun : Run s ops s') (hs : s.Sound) (hl : s.heap.list? id = some l) :
    ∃ l', s'.heap.list? id = some l' ∧
      (¬MovesList id s ops ∧ l'.former = l.former ∨
        MovesList id s ops ∧ ∃ s₁ l₁, FirstMove id s ops s₁ ∧ s₁.heap.list? id = some l₁ ∧
          l'.former[l.former.size]? = some l₁.items) := by
  induction hrun generalizing l with
  | done s => exact ⟨l, hl, .inl ⟨not_false, rfl⟩⟩
  | @step s s' op ops allowed hrest ih =>
    have hs₁ := (Session.Change.perform hs allowed).sound
    obtain ⟨l₁, hl₁, ⟨hmoves, hpushed⟩ | ⟨hstays, hsame⟩⟩ := Session.former_perform hs allowed hl
    · -- The list moves now, and the room stays as it is left.
      obtain ⟨l', hl', hkept⟩ := hrest.former hs₁ hl₁
      refine ⟨l', hl', .inr ⟨.inl hmoves, s, l, ?_, hl, hkept _ _ ?_⟩⟩
      · exact ⟨[], op, ops, rfl, .done s, not_false, hmoves⟩
      · rw [hpushed]
        exact Array.getElem?_push_size
    · obtain ⟨l', hl', ⟨hnone, hformer⟩ | ⟨hlater, s₂, l₂, hfirst, hl₂, hroom⟩⟩ := ih hs₁ hl₁
      · exact ⟨l', hl', .inl ⟨not_or.mpr ⟨hstays, hnone⟩, hformer.trans hsame⟩⟩
      · obtain ⟨before, next, after, rfl, hbefore, hnone, hmoves⟩ := hfirst
        refine ⟨l', hl', .inr ⟨.inr hlater, s₂, l₂, ?_, hl₂, ?_⟩⟩
        · exact ⟨op :: before, next, after, rfl, .step allowed hbefore,
            not_or.mpr ⟨hstays, hnone⟩, hmoves⟩
        · rw [← hsame]
          exact hroom

/-- **The item that a walk meets** after any run since it began. -/
theorem Run.walkItem (hrun : Run s ops s') (hs : s.Sound) (hl : s.heap.list? id = some l)
    (index : Nat) :
    (¬MovesList id s ops →
        s'.heap.walkItem (s.heap.beginWalk id) index = s'.heap.item id index) ∧
      (MovesList id s ops → ∃ s₁, FirstMove id s ops s₁ ∧
        s'.heap.walkItem (s.heap.beginWalk id) index = s₁.heap.item id index) := by
  have hwalk : s.heap.beginWalk id = ⟨id, l.former.size, l.items.size⟩ := by
    unfold Heap.beginWalk
    rw [hl]
  obtain ⟨l', hl', ⟨hnone, hformer⟩ | ⟨hmoves, s₁, l₁, hfirst, hl₁, hroom⟩⟩ := hrun.room hs hl
  · refine ⟨fun _ => ?_, fun hmoves => absurd hmoves hnone⟩
    have hpresent : l'.former[l.former.size]? = none := by
      rw [hformer]
      exact Array.getElem?_eq_none (Nat.le_refl _)
    rw [hwalk, Heap.item_of_list hl']
    simp only [Heap.walkItem, hl', hpresent, Option.getD_none]
  · refine ⟨fun hnone => absurd hmoves hnone, fun _ => ⟨s₁, hfirst, ?_⟩⟩
    rw [hwalk, Heap.item_of_list hl₁]
    simp only [Heap.walkItem, hl', hroom, Option.getD_some]

end Moves

/-! ## Calls in turn -/

/-- The call of a function that an evaluator makes. -/
def Invocation.made (ev : Evaluator) (s : Session) (f : Value) (args : List Value) : Invocation :=
  ⟨s, f, args, s.result (Action.call ev f args), s.after (Action.call ev f args)⟩

/-- **How a walk ends:** every position was visited, a call answered no, or a call stopped. -/
inductive WalkEnd where
  | finished
  | refused
  | stopped (stop : Stop)

/-- What remains of the end of a walk: it matters only whether a call stopped. -/
def WalkEnd.outcome {α : Type} (a : α) : WalkEnd → Except Stop α
  | .stopped stop => .error stop
  | _ => .ok a

/-- **Calls in turn** of one function: each begins in the session that the one before it left, and
    there is a next one only if the answer to this one is truthy. -/
inductive CallsInTurn (ev : Evaluator) (f : Value) :
    Session → List Invocation → WalkEnd → Session → Prop where
  | finished (s : Session) : CallsInTurn ev f s [] .finished s
  | stopped {s : Session} {args : List Value} {stop : Stop}
      (hcall : s.result (Action.call ev f args) = .error stop) :
      CallsInTurn ev f s [.made ev s f args] (.stopped stop) (s.after (Action.call ev f args))
  | refused {s s' : Session} {args : List Value} {answer : Value}
      (hcall : s.Returns (Action.call ev f args) answer s')
      (hno : (s'.heap.view answer).isTruthy = false) :
      CallsInTurn ev f s [.made ev s f args] .refused s'
  | next {s s₁ s' : Session} {args : List Value} {answer : Value} {calls : List Invocation}
      {ending : WalkEnd} (hcall : s.Returns (Action.call ev f args) answer s₁)
      (hyes : (s₁.heap.view answer).isTruthy = true)
      (hrest : CallsInTurn ev f s₁ calls ending s') :
      CallsInTurn ev f s (.made ev s f args :: calls) ending s'

/-- **A walk makes calls** in turn: at most a given number of them, all of them if it finishes, and
    its result is how they end. -/
structure MakesCalls (ev : Evaluator) (f : Value) (s : Session) (walk : Action Unit) (count : Nat)
    (calls : List Invocation) (ending : WalkEnd) : Prop where
  inTurn : CallsInTurn ev f s calls ending (s.after walk)
  result : s.result walk = ending.outcome ()
  length_le : calls.length ≤ count
  length_eq : ending = .finished → calls.length = count

/-- A call, and then another action if the answer is truthy. -/
def Action.callThen (ev : Evaluator) (f : Value) (args : List Value) (next : Action Unit) :
    Action Unit := do
  let answer ← Action.call ev f args
  if (← Action.view answer).isTruthy then next

section Calls

variable {s : Session} {ev : Evaluator} {f : Value} {args : List Value} {walk next : Action Unit}
  {count : Nat}

theorem Session.bind_view {β : Type} (v : Value) (f : Datum → Action β) :
    s.result (Action.view v >>= f) = s.result (f (s.heap.view v)) ∧
      s.after (Action.view v >>= f) = s.after (f (s.heap.view v)) :=
  bind_of_ok rfl f

/-- **The ways in which a call goes on:** it stops, it answers no, or the next action follows. -/
theorem Session.callThen_cases (s : Session) (ev : Evaluator) (f : Value) (args : List Value)
    (next : Action Unit) :
    (∃ stop, s.result (Action.call ev f args) = .error stop ∧
        s.result (Action.callThen ev f args next) = .error stop ∧
        s.after (Action.callThen ev f args next) = s.after (Action.call ev f args)) ∨
      ∃ answer s₁, s.Returns (Action.call ev f args) answer s₁ ∧
        ((s₁.heap.view answer).isTruthy = false ∧
            s.result (Action.callThen ev f args next) = .ok () ∧
            s.after (Action.callThen ev f args next) = s₁ ∨
          (s₁.heap.view answer).isTruthy = true ∧
            s.result (Action.callThen ev f args next) = s₁.result next ∧
            s.after (Action.callThen ev f args next) = s₁.after next) := by
  unfold Action.callThen
  cases hcall : s.result (Action.call ev f args) with
  | error stop => exact .inl ⟨stop, rfl, bind_of_error hcall _⟩
  | ok answer =>
    obtain ⟨hok, hleft⟩ := bind_of_ok hcall _
    obtain ⟨hview, hviewed⟩ := bind_view answer _
    rw [hok, hleft, hview, hviewed]
    refine .inr ⟨answer, _, ⟨hcall, rfl⟩, ?_⟩
    cases hyes : ((s.after (Action.call ev f args)).heap.view answer).isTruthy with
    | false => exact .inl ⟨rfl, rfl, rfl⟩
    | true => exact .inr ⟨rfl, rfl, rfl⟩

theorem makesCalls_pure (ev : Evaluator) (f : Value) (s : Session) :
    MakesCalls ev f s (pure ()) 0 [] .finished :=
  ⟨.finished s, rfl, Nat.le_refl 0, fun _ => rfl⟩

/-- A walk that ends with its first call, because the answer is no or the call stops. -/
theorem makesCalls_singleton {call : Invocation} {ending : WalkEnd} (hend : ending ≠ .finished)
    (hcall : CallsInTurn ev f s [call] ending (s.after walk))
    (hresult : s.result walk = ending.outcome ()) :
    MakesCalls ev f s walk (count + 1) [call] ending :=
  ⟨hcall, hresult, Nat.succ_le_succ (Nat.zero_le count), fun heq => absurd heq hend⟩

/-- **One step of any walk** that calls and goes on if the answer is truthy. What is known of the
    calls of the rest, and holds if there are none, gives what is known of all calls. -/
theorem exists_makesCalls_cons {P Q : List Invocation → Prop}
    (hstep : s.result walk = s.result (Action.callThen ev f args next) ∧
      s.after walk = s.after (Action.callThen ev f args next))
    (hnone : Q []) (hcons : ∀ calls, Q calls → P (.made ev s f args :: calls))
    (hnext : ∃ calls ending,
      MakesCalls ev f (s.after (Action.call ev f args)) next count calls ending ∧ Q calls) :
    ∃ calls ending, MakesCalls ev f s walk (count + 1) calls ending ∧ P calls := by
  obtain ⟨hresult, hafter⟩ := hstep
  rcases s.callThen_cases ev f args next with
    ⟨stop, hcall, hstop, hstopped⟩ | ⟨answer, s₁, hcall, ⟨hno, hok, hleft⟩ | ⟨hyes, hok, hleft⟩⟩
  · refine ⟨[.made ev s f args], .stopped stop, makesCalls_singleton ?_ ?_ ?_, hcons [] hnone⟩
    · exact fun heq => by cases heq
    · rw [hafter, hstopped]
      exact .stopped hcall
    · exact hresult.trans hstop
  · refine ⟨[.made ev s f args], .refused, makesCalls_singleton ?_ ?_ ?_, hcons [] hnone⟩
    · exact fun heq => by cases heq
    · rw [hafter, hleft]
      exact .refused hcall hno
    · exact hresult.trans hok
  · -- The walk goes on in the session that the call left.
    obtain ⟨calls, ending, hmakes, hrest⟩ := hnext
    rw [hcall.2] at hmakes
    refine ⟨.made ev s f args :: calls, ending, ⟨?_, ?_, ?_, ?_⟩, hcons calls hrest⟩
    · rw [hafter, hleft]
      exact .next hcall hyes hmakes.inTurn
    · rw [hresult, hok, hmakes.result]
    · exact Nat.succ_le_succ hmakes.length_le
    · exact fun heq => congrArg Nat.succ (hmakes.length_eq heq)

/-- After a walk there is a value, unless a call stopped. -/
theorem Session.bind_walk {α : Type} {ending : WalkEnd} (hend : s.result walk = ending.outcome ())
    (a : α) :
    s.result (walk >>= fun _ => pure a) = ending.outcome a ∧
      s.after (walk >>= fun _ => pure a) = s.after walk := by
  cases ending with
  | stopped stop => exact bind_of_error hend _
  | finished => exact bind_of_ok hend _
  | refused => exact bind_of_ok hend _

/-- The client that has some values, besides what the frames hold. -/
def Client.holding (s : Session) (values : List Value) : Client :=
  ⟨s, values ++ s.frames.flatMap Frame.handles, []⟩

theorem Client.has_holding (s : Session) {values : List Value} {v : Value} (hv : v ∈ values) :
    (Client.holding s values).Has v :=
  .inr (List.mem_append_left _ hv)

theorem Client.sound_holding (hs : s.Sound) {values : List Value}
    (hvalues : ∀ v ∈ values, s.heap.Valid v) : (Client.holding s values).Sound := by
  refine ⟨hs, ?_, ?_⟩
  · intro v hv
    rcases List.mem_append.mp hv with hvalue | hframe
    · exact hvalues v hvalue
    · exact (Client.sound_of hs).handles v hframe
  · intro frame hframe v hv
    exact .inr (List.mem_append_right _ (List.mem_flatMap.mpr ⟨frame, hframe, hv⟩))

/-- **A call is a run**, given valid arguments. -/
theorem run_call (fuel : Nat) (f : Value) (hs : s.Sound) (hargs : ∀ v ∈ args, s.heap.Valid v) :
    ∃ ops, Run s ops (s.after (Action.call (Action.eval fuel) f args)) := by
  -- The client that has the arguments can play the call.
  have hplayed := played_call (fun e c hs => played_eval fuel e c hs)
    (Client.sound_holding hs hargs) f fun v hv => Client.has_holding s hv
  obtain ⟨moves, c', hplay, hsession, -⟩ := hplayed.play
  have hrun := hplay.run
  rw [hsession] at hrun
  exact ⟨_, hrun⟩

end Calls

/-! ## What a walk visits -/

/-- A call on a walk: the session in which it begins, the position and the item. -/
structure Visit where
  session : Session
  index : Nat
  item : Value

/-- The call that is made on a visit. -/
def Visit.call (ev : Evaluator) (f : Value) (visit : Visit) : Invocation :=
  .made ev visit.session f [.ofNat visit.index, visit.item]

/-- **The visits of a walk** from a position on: calls in turn with a position and an item, one
    position after the other. -/
def Visits (ev : Evaluator) (f : Value) (s : Session) (index : Nat) (visits : List Visit)
    (ending : WalkEnd) (s' : Session) : Prop :=
  CallsInTurn ev f s (visits.map (Visit.call ev f)) ending s' ∧
    visits.map (·.index) = List.range' index visits.length

section Walks

variable {s : Session} {f : Value} {walk : Heap.Walk}

/-- **One step of a walk:** a call, and the rest if the answer is truthy. -/
theorem Session.callOnItems_succ (s : Session) (ev : Evaluator) (f : Value) (walk : Heap.Walk)
    (remaining index : Nat) :
    s.result (Action.callOnItems ev f walk (remaining + 1) index)
        = s.result (Action.callThen ev f [.ofNat index, s.heap.walkItem walk index]
            (Action.callOnItems ev f walk remaining (index + 1))) ∧
      s.after (Action.callOnItems ev f walk (remaining + 1) index)
        = s.after (Action.callThen ev f [.ofNat index, s.heap.walkItem walk index]
            (Action.callOnItems ev f walk remaining (index + 1))) :=
  bind_get _

/-- What a walk meets is valid. -/
theorem Heap.Sound.valid_walkItem {h : Heap} (hs : h.Sound) (walk : Heap.Walk) (index : Nat) :
    h.Valid (h.walkItem walk index) := by
  unfold Heap.walkItem
  cases hl : h.list? walk.node with
  | none => exact valid_nil
  | some l =>
    have hnode := list?_eq_some_iff.mp hl
    dsimp only
    cases hroom : l.former[walk.moves]? with
    | none =>
      rw [Option.getD_none]
      cases hitem : l.items[index]? with
      | none => exact valid_nil
      | some v =>
        refine hs.stored walk.node (.item index) v ?_
        rw [at?_of_node hnode]
        exact hitem
    | some room =>
      rw [Option.getD_some]
      cases hitem : room[index]? with
      | none => exact valid_nil
      | some v =>
        refine hs.former _ _ hnode v (List.mem_flatMap.mpr ⟨room, ?_, ?_⟩)
        · exact Array.mem_toList_iff.mpr (Array.mem_of_getElem? hroom)
        · exact Array.mem_toList_iff.mpr (Array.mem_of_getElem? hitem)

/-- **What a walk over a list does** is told by the calls that it makes: they visit one position
    after the other, and each visit begins in a session that a run reaches. -/
theorem exists_visits (fuel : Nat) (f : Value) (walk : Heap.Walk) (remaining index : Nat)
    (hs : s.Sound) :
    ∃ calls ending,
      MakesCalls (Action.eval fuel) f s
        (Action.callOnItems (Action.eval fuel) f walk remaining index) remaining calls ending ∧
      ∃ visits : List Visit, calls = visits.map (Visit.call (Action.eval fuel) f) ∧
        visits.map (·.index) = List.range' index visits.length ∧
        ∀ visit ∈ visits, visit.item = visit.session.heap.walkItem walk visit.index ∧
          ∃ ops, Run s ops visit.session := by
  induction remaining generalizing index s with
  | zero =>
    refine ⟨[], .finished, makesCalls_pure _ f s, [], rfl, rfl, fun visit hvisit => ?_⟩
    cases hvisit
  | succ remaining ih =>
    have hargs : ∀ v ∈ [Value.ofNat index, s.heap.walkItem walk index], s.heap.Valid v := by
      intro v hv
      simp only [List.mem_cons, List.not_mem_nil, or_false] at hv
      rcases hv with rfl | rfl
      · exact Heap.valid_number _
      · exact hs.heap.valid_walkItem walk index
    obtain ⟨ops, hrun⟩ := run_call fuel f hs hargs
    refine exists_makesCalls_cons (s.callOnItems_succ _ f walk remaining index) ?_ ?_
      (ih (index + 1) (hrun.sound hs))
    · exact ⟨[], rfl, rfl, fun visit hvisit => by cases hvisit⟩
    rintro calls ⟨visits, rfl, hindices, hall⟩
    refine ⟨⟨s, index, s.heap.walkItem walk index⟩ :: visits, rfl, ?_, ?_⟩
    · rw [List.map_cons, hindices]
      rfl
    · intro visit hvisit
      rcases List.mem_cons.mp hvisit with rfl | hmore
      · exact ⟨rfl, [], .done s⟩
      · obtain ⟨hitem, more, hmoreRun⟩ := hall visit hmore
        exact ⟨hitem, ops ++ more, hrun.append hmoreRun⟩

/-- A walk over a list gives nil, unless a call stops. -/
theorem Session.runCalling_eachItem (ev : Evaluator) (id : NodeId) {ending : WalkEnd}
    (hend : s.result (Action.callOnItems ev f (s.heap.beginWalk id) (s.heap.beginWalk id).length 0)
      = ending.outcome ()) :
    s.result (Action.runCalling ev .eachItem [.list id, f]) = ending.outcome .nil ∧
      s.after (Action.runCalling ev .eachItem [.list id, f])
        = s.after (Action.callOnItems ev f (s.heap.beginWalk id)
            (s.heap.beginWalk id).length 0) := by
  have hstart : s.result (Action.runCalling ev .eachItem [.list id, f]) = s.result _ ∧
      s.after (Action.runCalling ev .eachItem [.list id, f]) = s.after _ := bind_get _
  rw [hstart.1, hstart.2]
  exact bind_walk hend Value.nil

end Walks

/-- **A walk over a list visits the room that the list was in when it began.** Whatever the
    function does that it calls, with the list or with anything else: the positions are `0`,
    `1`, `2` and so on below the length that the list had at first, until an answer is not
    truthy or a call stops. As long as nothing was appended to the list when it was full, the
    item at a position is the one that the list has there at that moment. Afterwards it is the
    one that the list had there right before the first such append. -/
theorem walk_visits_first_room {s : Session} {id : NodeId} {l : ListNode} (hs : s.Sound)
    (hl : s.heap.list? id = some l) (f : Value) (fuel : Nat) :
    ∃ visits ending,
      Visits (Action.eval fuel) f s 0 visits ending
        (s.after (Action.runCalling (Action.eval fuel) .eachItem [.list id, f])) ∧
      s.result (Action.runCalling (Action.eval fuel) .eachItem [.list id, f])
        = ending.outcome .nil ∧
      visits.length ≤ l.items.size ∧ (ending = .finished → visits.length = l.items.size) ∧
      ∀ visit ∈ visits, visit.index < l.items.size ∧ (∃ ops, Run s ops visit.session) ∧
        ∀ ops, Run s ops visit.session →
          (¬MovesList id s ops → visit.item = visit.session.heap.item id visit.index) ∧
          (MovesList id s ops → ∃ s₁, FirstMove id s ops s₁ ∧
            visit.item = s₁.heap.item id visit.index) := by
  have hlength : (s.heap.beginWalk id).length = l.items.size := by
    unfold Heap.beginWalk
    rw [hl]
  obtain ⟨calls, ending, hmakes, visits, rfl, hindices, hall⟩ := exists_visits fuel f
    (s.heap.beginWalk id) (s.heap.beginWalk id).length 0 hs
  obtain ⟨hresult, hafter⟩ := Session.runCalling_eachItem _ id hmakes.result
  obtain ⟨hcalls, -, hcount, hfinished⟩ := hmakes
  rw [List.length_map, hlength] at hcount hfinished
  rw [← hafter] at hcalls
  refine ⟨visits, ending, ⟨hcalls, hindices⟩, hresult, hcount, hfinished, ?_⟩
  intro visit hvisit
  obtain ⟨hitem, hreached⟩ := hall visit hvisit
  have hindex : visit.index ∈ List.range' 0 visits.length := by
    rw [← hindices]
    exact List.mem_map_of_mem hvisit
  refine ⟨?_, hreached, fun ops hrun => ?_⟩
  · rw [List.mem_range'_1] at hindex
    omega
  · rw [hitem]
    exact hrun.walkItem hs hl visit.index

/-! ## A walk that misses a replacement -/

namespace GrowingWalk

/-- Notes the item of a visit and the one that the list has at that position, appends to the list,
    puts another second item into it, and answers yes. The list and the notes are captured. -/
def body : List Expr :=
  [.apply .append [.get (.ofCapture 1), .argument 1],
    .apply .append [.get (.ofCapture 1), .apply .listItem [.get (.ofCapture 0), .argument 0]],
    .apply .append [.get (.ofCapture 0), .string (utf8 "c")],
    .apply .replaceItem [.get (.ofCapture 0), .number (.ofNat 1), .string (utf8 "z")],
    .boolean true]

/-- Making a list of two strings without room for a third one. -/
def full : List Operation := [.build (.list [.string (utf8 "a"), .string (utf8 "b")])]

/-- Making the same list with room to spare. -/
def roomy : List Operation :=
  [.build (.list []), .append 0 (.string (utf8 "a")), .append 0 (.string (utf8 "b"))]

/-- The list and empty notes in cells, and the function that captures them. -/
def setUp (make : List Operation) : List Operation :=
  make ++ [.newCell (.list 0), .build (.list []), .newCell (.list 2),
    .newFunction (some (.body body)) [some 0, some 1]]

/-- The session after the list was made. -/
def session (make : List Operation) : Session :=
  (setUp make).foldl Session.perform (.new [] [] true)

/-- The function. -/
def function : Value := .function (some 6)

/-- The notes after a walk over the list. -/
def notes (make : List Operation) : Option (Array Value) :=
  (((session make).after
    (Action.runCalling (Action.eval 5) .eachItem [.list 1, function])).heap.list? 3).map (·.items)

theorem sound_session_full : (session full).Sound := by
  have hcell : ∀ (s : Session) n l, s.heap.nodes[n]? = some (.list l) →
      (Operation.newCell (.list n)).Allowed s := by
    intro s n l hl v hv id hid
    rw [List.mem_singleton.mp hv] at hid ⊢
    cases hid
    exact ⟨.list l, hl, trivial⟩
  have hstrings : (Operation.build (.list [.string (utf8 "a"), .string (utf8 "b")])).Allowed
      (.new [] [] true) := by
    intro v hv
    simp only [Operation.handles, Contents.handles, List.mem_cons, List.not_mem_nil,
      or_false] at hv
    rcases hv with rfl | rfl <;> exact Heap.valid_string _
  have hnone : ∀ (s : Session) op, Operation.handles op = [] → op.Allowed s := by
    intro s op hempty v hv
    rw [hempty] at hv
    cases hv
  have hrun : Run (.new [] [] true) (setUp full) (session full) :=
    .step hstrings <| .step (hcell _ 0 _ rfl) <| .step (hnone _ _ rfl) <|
      .step (hcell _ 2 _ rfl) <| .single (hnone _ _ rfl)
  exact hrun.sound (Session.sound_new [] [] true)

end GrowingWalk

open GrowingWalk in
/-- The full list is walked over by the function that grows it. -/
theorem full_list_walked :
    (session full).Sound ∧
      (session full).heap.list? 1
        = some ⟨#[.string (utf8 "a"), .string (utf8 "b")], 2, #[]⟩ ∧
      ∃ visits ending, Visits (Action.eval 5) function (session full) 0 visits ending
          ((session full).after (Action.runCalling (Action.eval 5) .eachItem
            [.list 1, function])) ∧
        visits.length ≤ 2 ∧ ∀ visit ∈ visits, visit.index < 2 ∧
          ∀ ops, Run (session full) ops visit.session → MovesList 1 (session full) ops →
            ∃ s₁, FirstMove 1 (session full) ops s₁ ∧
              visit.item = s₁.heap.item 1 visit.index := by
  have hl : (session full).heap.list? 1
      = some ⟨#[.string (utf8 "a"), .string (utf8 "b")], 2, #[]⟩ := rfl
  obtain ⟨visits, ending, hvisits, -, hlength, -, hall⟩ :=
    walk_visits_first_room sound_session_full hl function 5
  refine ⟨sound_session_full, hl, visits, ending, hvisits, hlength, fun visit hvisit => ?_⟩
  obtain ⟨hindex, -, hitem⟩ := hall visit hvisit
  exact ⟨hindex, fun ops hrun => (hitem ops hrun).2⟩

open GrowingWalk in
/-- **A replacement is missed after a move.** Both lists hold `a` and `b`, and the same function
    walks over them. At the second position each list has `z` when it is visited. The list with
    room to spare is visited with `z` there, the full one with `b`. -/
theorem replacement_missed_after_move :
    notes full = some #[.string (utf8 "a"), .string (utf8 "a"), .string (utf8 "b"),
        .string (utf8 "z")] ∧
      notes roomy = some #[.string (utf8 "a"), .string (utf8 "a"), .string (utf8 "z"),
        .string (utf8 "z")] := by
  decide +kernel

end ValueRuntime
