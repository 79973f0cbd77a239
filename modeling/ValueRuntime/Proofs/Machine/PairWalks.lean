import ValueRuntime.Proofs.Machine.Walks

/-! # Walks over objects that change

    Whoever walks through an object calls a function with each key and its value, and that
    function may store in the object. The walk takes the keys that the object had when it began,
    and reads each value from its place when its turn has come.

    No operation removes or moves a key, and an object that has a value for each of its keys has
    one after every operation, also after an object was inserted into itself: then it is the copy
    that lacks a value. So a walk finds each key at the place where it was, and a value for it.
-/

namespace ValueRuntime

/-! ## Objects that grow -/

/-- **An object has grown into another:** the keys are still in their places, and if there was a
    value for each key then there is one now. -/
structure ObjectNode.GrownInto (o o' : ObjectNode) : Prop where
  keys : o.keys.toList <+: o'.keys.toList
  sizes : o.keys.size = o.values.size → o'.keys.size = o'.values.size

namespace ObjectNode.GrownInto

variable {o o' o'' : ObjectNode}

theorem refl (o : ObjectNode) : o.GrownInto o := ⟨List.prefix_refl _, id⟩

theorem trans (h₁ : o.GrownInto o') (h₂ : o'.GrownInto o'') : o.GrownInto o'' :=
  ⟨h₁.keys.trans h₂.keys, fun hsizes => h₂.sizes (h₁.sizes hsizes)⟩

theorem getElem? (hgrown : o.GrownInto o') {i : Nat} {key : Value} (hkey : o.keys[i]? = some key) :
    o'.keys[i]? = some key := by
  rw [← Array.getElem?_toList] at hkey ⊢
  obtain ⟨hlt, rfl⟩ := List.getElem?_eq_some_iff.mp hkey
  exact List.prefix_iff_getElem?.mp hgrown.keys i hlt

end ObjectNode.GrownInto

/-- Storing in an object lets it grow. -/
theorem Heap.grownInto_store {h h' : Heap} {id : NodeId} {o : ObjectNode} {key v : Value}
    (ho : h.object? id = some o) (hst : h.store id key v = .ok h') :
    ∃ o', h'.object? id = some o' ∧ o.GrownInto o' := by
  obtain ⟨o₁, ho₁, hcases⟩ := store_cases hst
  rw [ho] at ho₁
  cases ho₁
  have hnode := object?_eq_some_iff.mp ho
  rcases hcases with ⟨index, -, -, rfl⟩ | ⟨-, rfl⟩
  · -- A known key: the number of values stays.
    refine ⟨o.replaceValue index (h.copy v).1, ?_, List.prefix_refl _, fun hsizes => ?_⟩
    · exact object?_eq_some_iff.mpr
        (getElem?_put_self _ (lt_size_of_getElem? (getElem?_copy_of_node hnode v)))
    · rw [ObjectNode.replaceValue, Array.size_setIfInBounds]
      exact hsizes
  · -- A new key: whatever the copy of the value looks like, one key and one value are added.
    have hkeyed := getElem?_copy_of_node (getElem?_withKey hnode key) v
    refine ⟨_, object?_eq_some_iff.mpr (getElem?_put_self _ (lt_size_of_getElem? hkeyed)), ?_, ?_⟩
    · show o.keys.toList <+: (o.keys.push _).toList
      rw [Array.toList_push]
      exact List.prefix_append _ _
    · intro hsizes
      show (o.keys.push _).size = (o.values.push _).size
      rw [Array.size_push, Array.size_push, hsizes]

/-- The container that an operation stores in. -/
def Operation.target? : Operation → Option NodeId
  | .append id _ => some id
  | .replaceItem id _ _ => some id
  | .store id _ _ => some id
  | _ => none

section Growth

variable {s s' : Session} {op : Operation} {ops : List Operation} {id : NodeId} {o : ObjectNode}

/-- **An operation changes only the container that it stores in.** -/
theorem Session.getElem?_perform (hs : s.Sound) (hop : op.Allowed s) {n : NodeId}
    (hn : n < s.heap.nodes.size) (hno : op.target? ≠ some n) :
    (s.perform op).heap.nodes[n]? = s.heap.nodes[n]? := by
  have hothers := (s.heapStep_perform op).others hs.heap hop hn
  cases op with
  | append id v => exact hothers fun w hw => by rw [List.mem_singleton.mp hw]; exact hno
  | replaceItem id index v => exact hothers fun w hw => by rw [List.mem_singleton.mp hw]; exact hno
  | store id key v => exact hothers fun w hw => by rw [List.mem_singleton.mp hw]; exact hno
  -- Holding a value and entering a call use values and store nothing.
  | hold name v => rfl
  | enter captured args => rfl
  | _ => exact hothers fun w hw => by cases hw

/-- **One operation lets an object grow,** or leaves it as it is. -/
theorem Session.grownInto_perform (hs : s.Sound) (hop : op.Allowed s)
    (ho : s.heap.object? id = some o) :
    ∃ o', (s.perform op).heap.object? id = some o' ∧ o.GrownInto o' := by
  have hnode := Heap.object?_eq_some_iff.mp ho
  -- A list cannot be where the object is.
  have hnoList : ¬s.heap.Valid (.list id) := by
    intro hlist
    obtain ⟨l, hl⟩ := hlist.list
    rw [hnode] at hl
    cases hl
  by_cases htarget : op.target? = some id
  · cases op with
    | store id' key v =>
      cases htarget
      simp only [Session.perform]
      split
      · next h hst => exact Heap.grownInto_store ho hst
      · exact ⟨o, ho, .refl o⟩
    | append id' v =>
      cases htarget
      exact absurd (hop _ List.mem_cons_self) hnoList
    | replaceItem id' index v =>
      cases htarget
      exact absurd (hop _ List.mem_cons_self) hnoList
    | _ => cases htarget
  · refine ⟨o, ?_, .refl o⟩
    rw [Heap.object?_eq_some_iff, getElem?_perform hs hop (Heap.lt_size_of_getElem? hnode) htarget]
    exact hnode

/-- **A run lets an object grow,** or leaves it as it is. -/
theorem Run.grownInto (hrun : Run s ops s') (hs : s.Sound) (ho : s.heap.object? id = some o) :
    ∃ o', s'.heap.object? id = some o' ∧ o.GrownInto o' := by
  induction hrun generalizing o with
  | done s => exact ⟨o, ho, .refl o⟩
  | @step s s' op ops allowed _ ih =>
    obtain ⟨o₁, ho₁, hfirst⟩ := Session.grownInto_perform hs allowed ho
    obtain ⟨o', ho', hrest⟩ := ih (Session.Change.perform hs allowed).sound ho₁
    exact ⟨o', ho', hfirst.trans hrest⟩

/-- A node that no operation of a run stores in stays as it is. -/
theorem Run.getElem?_eq (hrun : Run s ops s') (hs : s.Sound) {n : NodeId}
    (hn : n < s.heap.nodes.size) (hno : ∀ op ∈ ops, op.target? ≠ some n) :
    s'.heap.nodes[n]? = s.heap.nodes[n]? := by
  induction hrun with
  | done s => rfl
  | @step s s' op ops allowed _ ih =>
    have hchange := Session.Change.perform hs allowed
    rw [ih hchange.sound (Nat.lt_of_lt_of_le hn hchange.later.size_le) fun op hop =>
      hno op (List.mem_cons_of_mem _ hop)]
    exact Session.getElem?_perform hs allowed hn (hno op List.mem_cons_self)

/-- **A key holds what it held** after a run that stores in nothing but the object. -/
theorem Run.view_key (hrun : Run s ops s') (hs : s.Sound) (ho : s.heap.object? id = some o)
    (honly : ∀ op ∈ ops, ∀ n, op.target? = some n → n = id) {i : Nat} {key : Value}
    (hkey : o.keys[i]? = some key) : s'.heap.view key = s.heap.view key := by
  have hat : s.heap.at? id (.key i) = some key := by
    rw [Heap.at?_of_node (Heap.object?_eq_some_iff.mp ho)]
    exact hkey
  have hvalid := hs.heap.stored id _ _ hat
  refine Heap.view_of_agree hs.heap (hrun.extends hs).size_le hvalid ?_
  intro n hn
  refine hrun.getElem?_eq hs (hs.heap.reaches_lt_size hvalid hn) ?_
  intro op hop htarget
  -- What is stored in the object does not reach it.
  rw [honly op hop n htarget] at hn
  exact hs.heap.not_reaches_of_stored hat hn

end Growth

/-! ## The calls of a walk -/

/-- **A call shows a pair** of an object: its arguments are the key at a position, and the value
    that the object has there when the call begins. -/
def Invocation.ShowsPair (call : Invocation) (id : NodeId) (i : Nat) (key : Value) : Prop :=
  ∃ o value, call.session.heap.object? id = some o ∧ o.keys[i]? = some key ∧
    o.values[i]? = some value ∧ call.args = [key, value]

section PairWalks

variable {s : Session} {id : NodeId} {o : ObjectNode} {index : Nat} {key value : Value}

/-- **One step of a walk:** a call with a pair, and the rest if the answer is truthy. -/
theorem Session.callOnPairs_cons (ev : Evaluator) (f : Value) (ho : s.heap.object? id = some o)
    (hvalue : o.values[index]? = some value) (key : Value) (rest : List Value) :
    s.result (Action.callOnPairs ev f id index (key :: rest))
        = s.result (Action.callThen ev f [key, value]
            (Action.callOnPairs ev f id (index + 1) rest)) ∧
      s.after (Action.callOnPairs ev f id index (key :: rest))
        = s.after (Action.callThen ev f [key, value]
            (Action.callOnPairs ev f id (index + 1) rest)) := by
  have hread : Heap.valueAt o index = .ok value := by
    unfold Heap.valueAt
    rw [hvalue]
  have hstart : s.result (Action.callOnPairs ev f id index (key :: rest)) = s.result _ ∧
      s.after (Action.callOnPairs ev f id index (key :: rest)) = s.after _ := bind_get _
  have hobject : s.machine.heap.object? id = some o := ho
  rw [hstart.1, hstart.2]
  simp only [hobject, hread]
  exact ⟨rfl, rfl⟩

/-- **What a walk over an object does** is told by the calls that it makes: one for each key, as
    long as the answers are truthy and no call stops. -/
theorem exists_calls (fuel : Nat) (f : Value) {keys : List Value} (hs : s.Sound)
    (ho : s.heap.object? id = some o) (hsizes : o.keys.size = o.values.size)
    (hkeys : ∀ (i : Nat) key, keys[i]? = some key → o.keys[index + i]? = some key) :
    ∃ calls ending,
      MakesCalls (Action.eval fuel) f s
        (Action.callOnPairs (Action.eval fuel) f id index keys) keys.length calls ending ∧
      ∀ (i : Nat) call, calls[i]? = some call → ∃ key, keys[i]? = some key ∧
        call.ShowsPair id (index + i) key ∧ ∃ ops, Run s ops call.session := by
  induction keys generalizing s o index with
  | nil => exact ⟨[], .finished, makesCalls_pure _ f s, fun i call hcall => by cases hcall⟩
  | cons key rest ih =>
    have hkey : o.keys[index]? = some key := hkeys 0 key rfl
    -- There is a value for each key, so there is one to read here.
    have hlt : index < o.values.size := hsizes ▸ (Array.getElem?_eq_some_iff.mp hkey).1
    obtain ⟨value, hvalue⟩ : ∃ value, o.values[index]? = some value :=
      ⟨_, Array.getElem?_eq_getElem hlt⟩
    have hnode := Heap.object?_eq_some_iff.mp ho
    have hargs : ∀ v ∈ [key, value], s.heap.Valid v := by
      intro v hv
      simp only [List.mem_cons, List.not_mem_nil, or_false] at hv
      rcases hv with rfl | rfl
      · exact hs.heap.stored id (.key index) _ (by rw [Heap.at?_of_node hnode]; exact hkey)
      · exact hs.heap.stored id (.value index) _ (by rw [Heap.at?_of_node hnode]; exact hvalue)
    obtain ⟨ops, hrun⟩ := run_call fuel f hs hargs
    -- The call may have changed the object, but the keys that follow are in their places.
    obtain ⟨o₁, ho₁, hgrown⟩ := hrun.grownInto hs ho
    have hrest : ∀ (i : Nat) k, rest[i]? = some k → o₁.keys[index + 1 + i]? = some k := by
      intro i k hk
      rw [Nat.add_assoc, Nat.add_comm 1 i]
      exact hgrown.getElem? (hkeys (i + 1) k hk)
    refine exists_makesCalls_cons (Session.callOnPairs_cons _ f ho hvalue key rest) ?_ ?_
      (ih (hrun.sound hs) ho₁ (hgrown.sizes hsizes) hrest)
    · exact fun i call hcall => by cases hcall
    intro calls hall i call hcall
    cases i with
    | zero =>
      cases hcall
      exact ⟨key, rfl, ⟨o, value, ho, hkey, hvalue, rfl⟩, [], .done s⟩
    | succ i =>
      obtain ⟨k, hk, hshown, more, hmore⟩ := hall i call hcall
      rw [Nat.add_assoc, Nat.add_comm 1 i] at hshown
      exact ⟨k, hk, hshown, ops ++ more, hrun.append hmore⟩

/-- A walk over an object gives nil, unless a call stops. -/
theorem Session.runCalling_eachPair (ev : Evaluator) (f : Value)
    (ho : s.heap.object? id = some o) {ending : WalkEnd}
    (hend : s.result (Action.callOnPairs ev f id 0 o.keys.toList) = ending.outcome ()) :
    s.result (Action.runCalling ev .eachPair [.object id, f]) = ending.outcome .nil ∧
      s.after (Action.runCalling ev .eachPair [.object id, f])
        = s.after (Action.callOnPairs ev f id 0 o.keys.toList) := by
  have hstart : s.result (Action.runCalling ev .eachPair [.object id, f]) = s.result _ ∧
      s.after (Action.runCalling ev .eachPair [.object id, f]) = s.after _ := bind_get _
  have hobject : s.machine.heap.object? id = some o := ho
  rw [hstart.1, hstart.2, hobject]
  exact bind_walk hend Value.nil

/-- **A walk over an object is a run,** and a value is missing on it only if the run has inserted
    an object into itself. -/
theorem run_callOnPairs (fuel : Nat) (f : Value) (hs : s.Sound)
    (ho : s.heap.object? id = some o) :
    ∃ ops, Run s ops (s.after (Action.callOnPairs (Action.eval fuel) f id 0 o.keys.toList)) ∧
      (s.heap.Balanced → ∀ index length,
        s.result (Action.callOnPairs (Action.eval fuel) f id 0 o.keys.toList)
          = .error (.fault (.indexOutOfRange index length)) → SelfInserting s ops) := by
  have hnode := Heap.object?_eq_some_iff.mp ho
  have hvalid : ∀ v ∈ [Value.object id], s.heap.Valid v := by
    intro v hv n hn
    rw [List.mem_singleton.mp hv] at hn ⊢
    cases hn
    exact ⟨_, hnode, trivial⟩
  have hkeys : ∀ (i : Nat) k, o.keys.toList[i]? = some k →
      s.heap.at? id (.key (0 + i)) = some k := by
    intro i k hk
    rw [Heap.at?_of_node hnode, Nat.zero_add]
    rw [Array.getElem?_toList] at hk
    exact hk
  -- The client that has the object can play the walk.
  have hplayed := played_callOnPairs (fun e c hs => played_eval fuel e c hs)
    (Client.sound_holding hs hvalid) f (Client.has_holding s List.mem_cons_self) 0 hkeys
  obtain ⟨moves, c', hplay, hsession, -⟩ := hplayed.play
  have hrun := hplay.run
  rw [hsession] at hrun
  refine ⟨_, hrun, fun hb index length hfault => ?_⟩
  have hbroken := hplayed.index index length hfault
  rw [hrun.balanced_iff hs] at hbroken
  exact Classical.not_not.mp fun hno => hbroken ⟨hb, hno⟩

end PairWalks

/-- **A walk over an object visits the pairs that it had when the walk began.** Whatever the
    function does that it calls, with the object or with anything else: the first call gets the
    first key, the second call the second one, and so on, until an answer is not truthy or a call
    stops. Keys that are added meanwhile are not visited. Each key comes with the value that the
    object has at the place of the key at that moment, and as long as nothing but the object was
    stored in, the key holds what it held at first. The walk itself never stops, only a call does.
    A call misses the value of a key only if an object was inserted into itself. -/
theorem pair_walk_visits_first_keys {s : Session} {id : NodeId} {o : ObjectNode} (hs : s.Sound)
    (ho : s.heap.object? id = some o) (hsizes : o.keys.size = o.values.size) (f : Value)
    (fuel : Nat) :
    ∃ calls ending ops,
      CallsInTurn (Action.eval fuel) f s calls ending
        (s.after (Action.runCalling (Action.eval fuel) .eachPair [.object id, f])) ∧
      s.result (Action.runCalling (Action.eval fuel) .eachPair [.object id, f])
        = ending.outcome .nil ∧
      calls.length ≤ o.keys.size ∧ (ending = .finished → calls.length = o.keys.size) ∧
      (∀ (i : Nat) call, calls[i]? = some call →
        ∃ key, o.keys[i]? = some key ∧ call.ShowsPair id i key ∧
          (∃ before, Run s before call.session) ∧
          ∀ before, Run s before call.session →
            (∀ op ∈ before, ∀ n, op.target? = some n → n = id) →
            call.session.heap.view key = s.heap.view key) ∧
      Run s ops (s.after (Action.runCalling (Action.eval fuel) .eachPair [.object id, f])) ∧
      (s.heap.Balanced → ∀ index length,
        s.result (Action.runCalling (Action.eval fuel) .eachPair [.object id, f])
          = .error (.fault (.indexOutOfRange index length)) → SelfInserting s ops) := by
  have hkeys : ∀ (i : Nat) key, o.keys.toList[i]? = some key → o.keys[0 + i]? = some key := by
    intro i key hkey
    rw [Array.getElem?_toList] at hkey
    rw [Nat.zero_add]
    exact hkey
  obtain ⟨calls, ending, ⟨hcalls, hend, hlength, hfinished⟩, hall⟩ :=
    exists_calls fuel f hs ho hsizes hkeys
  obtain ⟨hresult, hafter⟩ := Session.runCalling_eachPair (Action.eval fuel) f ho hend
  obtain ⟨ops, hrun, hmissing⟩ := run_callOnPairs fuel f hs ho
  rw [← hafter] at hcalls hrun
  refine ⟨calls, ending, ops, hcalls, hresult, hlength, hfinished, ?_, hrun, ?_⟩
  · intro i call hcall
    obtain ⟨key, hkey, hshown, hreached⟩ := hall i call hcall
    rw [Array.getElem?_toList] at hkey
    rw [Nat.zero_add] at hshown
    exact ⟨key, hkey, hshown, hreached, fun before hbefore honly =>
      hbefore.view_key hs ho honly hkey⟩
  · intro hb index length hfault
    rw [hresult] at hfault
    refine hmissing hb index length ?_
    rw [hend]
    cases ending with
    | stopped stop =>
      cases hfault
      rfl
    | finished => cases hfault
    | refused => cases hfault

/-! ## A walk while pairs are stored -/

namespace StoringWalk

/-- Notes the key and the value of a visit, puts another value under the second key, stores under
    a new key, and answers yes. The object and the notes are captured. -/
def body : List Expr :=
  [.apply .append [.get (.ofCapture 1), .argument 0],
    .apply .append [.get (.ofCapture 1), .argument 1],
    .apply .store [.get (.ofCapture 0), .string (utf8 "b"), .string (utf8 "z")],
    .apply .store [.get (.ofCapture 0), .argument 1, .string (utf8 "new")],
    .boolean true]

/-- Makes an object with two keys, empty notes, and the function that captures them. -/
def setUp : Expr :=
  .seq [.bind (utf8 "object") (.object [(.string (utf8 "a"), .string (utf8 "x")),
      (.string (utf8 "b"), .string (utf8 "y"))]),
    .bind (utf8 "notes") (.list []),
    .function (some body) [.ofLocal (utf8 "object"), .ofLocal (utf8 "notes")]]

/-- The session in which the walk begins. -/
def session : Session := (Session.new [] [] true).after (Action.eval 4 setUp)

/-- The function. -/
def function : Value := .function (some 6)

/-- The session after the walk over the object. -/
def walked : Session :=
  session.after (Action.runCalling (Action.eval 5) .eachPair [.object 1, function])

theorem sound_session : session.Sound := by
  have hnew := Session.sound_new [] [] true
  obtain ⟨ops, hrun⟩ := (traced_eval 4 setUp _ hnew).run
  exact hrun.sound hnew

end StoringWalk

open StoringWalk in
/-- The second key is visited with the value that the first visit has put there, and the keys that
    the visits have added are not visited. -/
theorem two_keys_visited_while_storing :
    session.Sound ∧
      (walked.heap.list? 3).map (·.items) = some #[.string (utf8 "a"), .string (utf8 "x"),
        .string (utf8 "b"), .string (utf8 "z")] ∧
      walked.heap.keyCount 1 = 4 ∧
      ∃ o, session.heap.object? 1 = some o ∧
        o.keys = #[.string (utf8 "a"), .string (utf8 "b")] ∧
        o.values = #[.string (utf8 "x"), .string (utf8 "y")] ∧
        ∃ calls ending, CallsInTurn (Action.eval 5) function session calls ending walked ∧
          calls.length ≤ o.keys.size ∧ ∀ (i : Nat) call, calls[i]? = some call →
            ∃ key, o.keys[i]? = some key ∧ call.ShowsPair 1 i key := by
  have hpairs : (session.heap.object? 1).map (fun o => (o.keys, o.values))
      = some (#[.string (utf8 "a"), .string (utf8 "b")],
        #[.string (utf8 "x"), .string (utf8 "y")]) := by decide +kernel
  obtain ⟨o, ho, hpair⟩ := Option.map_eq_some_iff.mp hpairs
  obtain ⟨hkeys, hvalues⟩ := Prod.mk.inj hpair
  have hsizes : o.keys.size = o.values.size := by rw [hkeys, hvalues]; rfl
  obtain ⟨calls, ending, -, hcalls, -, hlength, -, hall, -⟩ :=
    pair_walk_visits_first_keys sound_session ho hsizes function 5
  refine ⟨sound_session, by decide +kernel, by decide +kernel, o, ho, hkeys, hvalues, calls,
    ending, hcalls, hlength, fun i call hcall => ?_⟩
  obtain ⟨key, hkey, hshown, -⟩ := hall i call hcall
  exact ⟨key, hkey, hshown⟩

end ValueRuntime
