import ValueRuntime.Image.Globals
import ValueRuntime.Proofs.Machine.Trace
import ValueRuntime.Proofs.NameTable

/-! # Evaluation is a play

    The evaluator is followed expression by expression, given that the evaluation of parts is
    played. With that, `played_eval` is an induction on fuel: whatever code does, a client does
    by moves, and so it is a run of operations. A walk through the pairs of an object is where
    keys are lent. Loading the values of an image is a run too.
-/

namespace ValueRuntime

section Evaluator

variable {ev : Evaluator} {c : Client}

/-! ## Sequences -/

theorem played_evalLast (hev : ∀ e (c : Client), c.Sound → Played c (ev e) Client.Has)
    (hs : c.Sound) (es : List Expr) : Played c (Action.evalLast ev es) Client.Has := by
  induction es generalizing c with
  | nil => exact .read rfl rfl Client.has_nil
  | cons e rest ih =>
    cases rest with
    | nil => exact hev e c hs
    | cons e' rest => exact .bind hs (hev e c hs) fun c' _ hs' _ _ => ih hs'

theorem played_evalAll (hev : ∀ e (c : Client), c.Sound → Played c (ev e) Client.Has)
    (hs : c.Sound) (es : List Expr) :
    Played c (Action.evalAll ev es) fun c values => ∀ v ∈ values, c.Has v := by
  induction es generalizing c with
  | nil => exact .read rfl rfl fun v hv => by cases hv
  | cons e rest ih =>
    refine .bind hs (hev e c hs) fun c' first hs' _ hfirst => ?_
    refine .bind hs' (ih hs') fun c'' more _ hlater hmore => ?_
    refine .read rfl rfl ?_
    intro v hv
    rcases List.mem_cons.mp hv with rfl | hv'
    · exact hlater.has hfirst
    · exact hmore v hv'

theorem played_evalPairs (hev : ∀ e (c : Client), c.Sound → Played c (ev e) Client.Has)
    (hs : c.Sound) (entries : List (Expr × Expr)) :
    Played c (Action.evalPairs ev entries) fun c pairs =>
      (∀ v ∈ pairs.1, c.Has v) ∧ ∀ v ∈ pairs.2, c.Has v := by
  induction entries generalizing c with
  | nil => exact .read rfl rfl ⟨fun v hv => (by cases hv), fun v hv => (by cases hv)⟩
  | cons entry rest ih =>
    obtain ⟨key, content⟩ := entry
    refine .bind hs (hev key c hs) fun c₁ k hs₁ _ hk => ?_
    refine .bind hs₁ (hev content c₁ hs₁) fun c₂ v hs₂ hlater₂ hv => ?_
    refine .bind hs₂ (ih hs₂) fun c₃ more _ hlater₃ hmore => ?_
    refine .read rfl rfl ⟨?_, ?_⟩
    · intro w hw
      rcases List.mem_cons.mp hw with rfl | hw'
      · exact (hlater₂.trans hlater₃).has hk
      · exact hmore.1 w hw'
    · intro w hw
      rcases List.mem_cons.mp hw with rfl | hw'
      · exact hlater₃.has hv
      · exact hmore.2 w hw'

theorem played_evalTimes (hev : ∀ e (c : Client), c.Sound → Played c (ev e) Client.Has)
    (hs : c.Sound) (e : Expr) (count : Nat) {last : Value} (hlast : c.Has last) :
    Played c (Action.evalTimes ev e count last) Client.Has := by
  induction count generalizing c last with
  | zero => exact .read rfl rfl hlast
  | succ count ih => exact .bind hs (hev e c hs) fun c' v hs' _ hv => ih hs' hv

theorem played_wrapTimes (hs : c.Sound) (wrapping : Wrapping) (count : Nat) {v : Value}
    (hv : c.Has v) : Played c (Action.wrapTimes wrapping count v) Client.Has := by
  unfold Action.wrapTimes
  split
  · exact .read rfl rfl hv
  · refine .view (played_build (.wrapped wrapping count v) ?_ rfl)
    intro w hw
    rw [List.mem_singleton.mp hw]
    exact hs.valid hv

/-! ## Calls -/

theorem played_performOn (hs : c.Sound) (primitive : Primitive) {args : List Value}
    (hargs : ∀ v ∈ args, c.Has v) :
    Played c (Action.performOn primitive args) Client.Has := by
  have harg : ∀ index : Nat, c.Has (args[index]?.getD .nil) := by
    intro index
    cases hget : args[index]? with
    | none => exact Client.has_nil
    | some v => exact hargs v (List.mem_of_getElem? hget)
  exact played_perform hs primitive (harg 0) (harg 1) (harg 2)

theorem played_call (hev : ∀ e (c : Client), c.Sound → Played c (ev e) Client.Has)
    (hs : c.Sound) (f : Value) {args : List Value} (hargs : ∀ v ∈ args, c.Has v) :
    Played c (Action.call ev f args) Client.Has := by
  have hcallable : Played c (Action.callable? f) fun _ _ => True := by
    unfold Action.callable?
    split <;> exact .read rfl rfl trivial
  refine .bind hs hcallable fun c' found hs' hlater _ => ?_
  have hargs' : ∀ v ∈ args, c'.Has v := fun v hv => hlater.has (hargs v hv)
  cases found with
  | none => exact .read rfl rfl Client.has_nil
  | some callable =>
    simp only []
    cases callable.entry with
    | none => exact .read rfl rfl Client.has_nil
    | some entry =>
      cases entry with
      | builtin b => exact played_performOn hs' b.primitive hargs'
      | body code =>
        exact .inFrame hs' hargs' fun c'' hs'' => played_evalLast hev hs'' code

theorem played_callOnItems (hev : ∀ e (c : Client), c.Sound → Played c (ev e) Client.Has)
    (hs : c.Sound) (f : Value) {walk : Heap.Walk} (hlist : c.Has (.list walk.node))
    (remaining index : Nat) :
    Played c (Action.callOnItems ev f walk remaining index) fun _ _ => True := by
  induction remaining generalizing c index with
  | zero => exact .read rfl rfl trivial
  | succ remaining ih =>
    refine .get (.having hs (Client.finds_walkItem hlist index) ?_)
    intro c' _ hs' hlater hitem
    have hargs : ∀ v ∈ [Value.ofNat index, c.heap.walkItem walk index], c'.Has v := by
      intro v hv
      simp only [List.mem_cons, List.not_mem_nil, or_false] at hv
      rcases hv with rfl | rfl
      · exact Client.has_number _
      · exact hitem
    refine .bind hs' (played_call hev hs' f hargs) fun c'' result hs'' hlater' _ => .view ?_
    split
    · exact ih hs'' ((hlater.trans hlater').has hlist) (index + 1)
    · exact .read rfl rfl trivial

/-- **A walk through the pairs of an object lends its keys,** one before each call. They were
    read when the walk began, and are still at their places. -/
theorem played_callOnPairs (hev : ∀ e (c : Client), c.Sound → Played c (ev e) Client.Has)
    (hs : c.Sound) (f : Value) {id : NodeId} (hobject : c.Has (.object id)) (index : Nat)
    {keys : List Value}
    (hkeys : ∀ i k, keys[i]? = some k → c.heap.at? id (.key (index + i)) = some k) :
    Played c (Action.callOnPairs ev f id index keys) fun _ _ => True := by
  induction keys generalizing c index with
  | nil => exact .read rfl rfl trivial
  | cons key rest ih =>
    have hkey : c.heap.at? id (.key index) = some key := hkeys 0 key rfl
    refine .get ?_
    cases ho : c.session.machine.heap.object? id with
    | none => exact .read rfl rfl trivial
    | some o =>
      have hvalue : Played c (Action.ofFault (Heap.valueAt o index)) Client.Has := by
        refine played_found (fun v hv => Client.finds_valueAt hobject ho hv) ?_
        intro position length hf
        have hnode : c.heap.nodes[id]? = some (.object o) := Heap.object?_eq_some_iff.mp ho
        rw [Heap.at?_of_node hnode] at hkey
        exact Heap.not_balanced_of_valueAt ho (Array.getElem?_eq_some_iff.mp hkey).1 hf
      refine .bind hs hvalue fun c₁ value hs₁ hlater₁ hvalue₁ => ?_
      have hlend : (Move.lend key).Allowed c₁ :=
        ⟨id, index, hlater₁.has hobject, hlater₁.heap.key hkey⟩
      refine .after_move hlend rfl ?_
      have hs₂ := hs₁.play hlend
      have hlater₂ := hlater₁.trans (Client.later_play hs₁ hlend)
      have hargs : ∀ v ∈ [key, value], (c₁.play (.lend key)).Has v := by
        intro v hv
        simp only [List.mem_cons, List.not_mem_nil, or_false] at hv
        rcases hv with rfl | rfl
        · exact .inr List.mem_cons_self
        · exact (Client.later_play hs₁ hlend).has hvalue₁
      refine .bind hs₂ (played_call hev hs₂ f hargs) fun c₃ result hs₃ hlater₃ _ => .view ?_
      have hlater := hlater₂.trans hlater₃
      split
      · refine ih hs₃ (hlater.has hobject) (index + 1) ?_
        intro i k hk
        rw [Nat.add_assoc, Nat.add_comm 1 i]
        exact hlater.heap.key (hkeys (i + 1) k hk)
      · exact .read rfl rfl trivial

theorem played_runCalling (hev : ∀ e (c : Client), c.Sound → Played c (ev e) Client.Has)
    (hs : c.Sound) (calling : Calling) {args : List Value} (hargs : ∀ v ∈ args, c.Has v) :
    Played c (Action.runCalling ev calling args) Client.Has := by
  have hfirst : c.Has (args[0]?.getD .nil) := by
    cases hget : args[0]? with
    | none => exact Client.has_nil
    | some v => exact hargs v (List.mem_of_getElem? hget)
  cases calling with
  | function => exact played_call hev hs _ fun v hv => hargs v (List.mem_of_mem_drop hv)
  | eachItem =>
    simp only [Action.runCalling]
    split
    · next id hid =>
      rw [hid] at hfirst
      have hwalk : (c.heap.beginWalk id).node = id := by
        unfold Heap.beginWalk
        split <;> rfl
      have hlist : c.Has (.list (c.heap.beginWalk id).node) := by
        rw [hwalk]
        exact hfirst
      exact .get (.bind hs (played_callOnItems hev hs _ hlist _ 0) fun c' _ _ _ _ =>
        .read rfl rfl Client.has_nil)
    · exact .read rfl rfl Client.has_nil
  | eachPair =>
    simp only [Action.runCalling]
    split
    · next id hid =>
      rw [hid] at hfirst
      refine .get ?_
      cases ho : c.session.machine.heap.object? id with
      | none => exact .stop rfl rfl fun _ _ hstop => by cases hstop
      | some o =>
        have hkeys : ∀ i k, o.keys.toList[i]? = some k →
            c.heap.at? id (.key (0 + i)) = some k := by
          intro i k hk
          have hnode : c.heap.nodes[id]? = some (.object o) := Heap.object?_eq_some_iff.mp ho
          rw [Heap.at?_of_node hnode, Nat.zero_add]
          rw [Array.getElem?_toList] at hk
          exact hk
        exact .bind hs (played_callOnPairs hev hs _ hfirst 0 hkeys) fun c' _ _ _ _ =>
          .read rfl rfl Client.has_nil
    · exact .read rfl rfl Client.has_nil

/-! ## Iterators -/

/-- The length of an iteration over an object is the number of its keys. -/
theorem played_iteratorLength (it : Iterator) :
    Played c (Action.iteratorLength it) fun c length =>
      ∀ id o, it.source = .object id → c.heap.object? id = some o → length = o.keys.size := by
  obtain ⟨source, position⟩ := it
  cases source with
  | object id =>
    refine .read rfl rfl ?_
    intro id' o hsource ho
    cases hsource
    show c.heap.keyCount id = o.keys.size
    unfold Heap.keyCount
    rw [ho]
    rfl
  | _ => exact .read rfl rfl fun id o hsource _ => by cases hsource

/-- An iteration over an object gives copies of its keys and values, and one over a list gives
    the items of its snapshot. -/
theorem played_iteratorValue (hs : c.Sound) (it : Iterator) (hsource : c.Has it.source)
    (hposition : ∀ id o, it.source = .object id → c.heap.object? id = some o →
      it.position < o.keys.size) :
    Played c (Action.iteratorValue it) Client.Has := by
  obtain ⟨source, position⟩ := it
  cases source with
  | string text => exact .read rfl rfl (Client.has_string _)
  | list id => exact .find rfl rfl (Client.finds_item hsource position)
  | object id =>
    refine .get ?_
    cases ho : c.session.machine.heap.object? id with
    | none => exact .read rfl rfl Client.has_nil
    | some o =>
      have hvalue : Played c (Action.ofFault (Heap.valueAt o position)) Client.Has := by
        refine played_found (fun v hv => Client.finds_valueAt hsource ho hv) ?_
        intro index length hf
        exact Heap.not_balanced_of_valueAt ho (hposition id o rfl ho) hf
      refine .bind hs hvalue fun c' value hs' hlater hv => played_newList ?_
      intro v hmem
      simp only [List.mem_cons, List.not_mem_nil, or_false] at hmem
      rcases hmem with rfl | rfl
      · cases hkey : o.keys[position]? with
        | none => exact Heap.valid_nil
        | some key =>
          refine hlater.heap.valid (hs.session.heap.stored id (.key position) key ?_)
          have hnode : c.session.heap.nodes[id]? = some (.object o) :=
            Heap.object?_eq_some_iff.mp ho
          rw [Heap.at?_of_node hnode]
          exact hkey
      · exact hs'.valid hv
  | _ => exact .read rfl rfl Client.has_nil

/-- Reading from an iteration leaves the frame alone. -/
theorem frame_iteratorValue (s : Session) (it : Iterator) :
    (s.after (Action.iteratorValue it)).machine.frame = s.machine.frame := by
  obtain ⟨source, position⟩ := it
  cases source with
  | object id =>
    rw [Action.iteratorValue]
    simp only [(Session.bind_get _).2]
    cases s.machine.heap.object? id with
    | none => rfl
    | some o =>
      simp only []
      cases Heap.valueAt o position with
      | error fault => rfl
      | ok value => rfl
  | _ => rfl

theorem after_iteratorLength (s : Session) (it : Iterator) :
    s.after (Action.iteratorLength it) = s := by
  obtain ⟨source, position⟩ := it
  cases source <;> rfl

/-- Moving an iteration on by one place. -/
theorem played_advance {name : Bytes} {it : Iterator}
    (hit : c.session.machine.frame.iterators.lookup name = some it) :
    Played c (Action.modifyFrame fun f =>
      { f with iterators := named name { it with position := it.position + 1 } f.iterators })
      fun _ _ => True := by
  refine .op (.advance name) (Operation.allowed_of_valid (fun v hv => by cases hv) rfl)
    ?_ rfl trivial
  have hframe : Session.advanced name c.session.machine.frame
      = { c.session.machine.frame with
          iterators := named name { it with position := it.position + 1 }
            c.session.machine.frame.iterators } := by
    unfold Session.advanced
    rw [hit]
  show _ = (⟨{ c.session.machine with
    frame := Session.advanced name c.session.machine.frame }, c.session.callers⟩ : Session)
  rw [hframe]
  rfl

/-- The snapshot of an iterator of the running frame can be read. -/
theorem finds_source {name : Bytes} {it : Iterator}
    (hit : c.session.machine.frame.iterators.lookup name = some it) : c.Finds it.source := by
  have hstored : c.session.at? (.snapshot c.session.callers.length name) = some it.source := by
    rw [Session.at?_snapshot, if_pos rfl, Frame.snapshot?, hit]
    rfl
  exact .inr (.outside (by trivial) hstored)

theorem played_hasNext (hs : c.Sound) (name : Bytes) :
    Played c (Action.hasNext name) Client.Has := by
  unfold Action.hasNext
  refine .get ?_
  cases c.session.machine.frame.iterators.lookup name with
  | none => exact .read rfl rfl (Client.has_boolean _)
  | some it =>
    exact .bind hs (played_iteratorLength it) fun c' length _ _ _ =>
      .read rfl rfl (Client.has_boolean _)

theorem played_next (hs : c.Sound) (name : Bytes) :
    Played c (Action.next name) Client.Has := by
  unfold Action.next
  refine .get ?_
  cases hit : c.session.machine.frame.iterators.lookup name with
  | none => exact .read rfl rfl Client.has_nil
  | some it =>
    refine .having hs (finds_source hit) fun c₁ hsame hs₁ _ hsource => ?_
    refine .bindAfter hs₁ (played_iteratorLength it)
      fun c₂ length hsession₂ _ hs₂ hlater₂ hlength => ?_
    rw [after_iteratorLength, hsame] at hsession₂
    split
    · next hlt =>
      have hvalue : Played c₂ (Action.iteratorValue it) Client.Has := by
        refine played_iteratorValue hs₂ it (hlater₂.has hsource) ?_
        intro id o hobject ho
        rw [← hlength id o hobject ho]
        exact hlt
      refine .bindAfter hs₂ hvalue fun c₃ v hsession₃ _ hs₃ _ hv => ?_
      have hit' : c₃.session.machine.frame.iterators.lookup name = some it := by
        rw [hsession₃, frame_iteratorValue, hsession₂]
        exact hit
      exact .bind hs₃ (played_advance hit') fun c₄ _ _ hlater _ =>
        .read rfl rfl (hlater.has hv)
    · exact .read rfl rfl Client.has_nil

/-! ## Expressions -/

theorem played_bind {name : Bytes} {v : Value} (hs : c.Sound) (hv : c.Has v) :
    Played c (do
      let cell ← Action.newCell v
      Action.modifyFrame fun f => { f with locals := named name cell f.locals }
      Action.readCell (some cell)) Client.Has := by
  refine .bind hs (played_newCell (hs.valid hv)) fun c' cell hs' _ _ => ?_
  have hname : Played c' (Action.modifyFrame fun f =>
      { f with locals := named name cell f.locals }) fun _ _ => True :=
    .op (.bind name cell) (Operation.allowed_of_valid (fun v hv => by cases hv) rfl)
      rfl rfl trivial
  exact .bind hs' hname fun c'' _ _ _ _ => played_readCell (some cell)

theorem played_hold {name : Bytes} {v : Value} (hs : c.Sound) (hv : c.Has v) :
    Played c (do
      Action.modifyFrame fun f => { f with held := named name v f.held }
      return v) Client.Has := by
  have hname : Played c (Action.modifyFrame fun f =>
      { f with held := named name v f.held }) fun _ _ => True := by
    refine .op (.hold name v) ⟨?_, by simpa [Operation.uses] using hv⟩ rfl rfl trivial
    intro w hw
    rw [List.mem_singleton.mp hw]
    exact hs.valid hv
  exact .bind hs hname fun c' _ _ hlater _ => .read rfl rfl (hlater.has hv)

theorem played_iterate {name : Bytes} {v : Value} (hv : c.heap.Valid v) :
    Played c (do
      let it ← Action.iterator v
      Action.modifyFrame fun f => { f with iterators := named name it f.iterators }
      return Value.nil) Client.Has := by
  refine .op (.iterate name v) (Operation.allowed_of_valid ?_ rfl) rfl rfl Client.has_nil
  intro w hw
  rw [List.mem_singleton.mp hw]
  exact hv

/-- A client has what the running frame has kept under a name, or was called with. -/
theorem has_handle (hs : c.Sound) {v : Value} (hv : v ∈ c.session.machine.frame.handles) :
    c.Has v :=
  hs.frames _ (List.mem_append_right _ List.mem_cons_self) v hv

theorem played_argument (hs : c.Sound) (index : Int) :
    Played c (Action.step ev (.argument index)) Client.Has := by
  refine .read rfl rfl ?_
  show c.Has ((Action.atIndex? c.session.machine.frame.args index).getD .nil)
  unfold Action.atIndex?
  split
  · cases harg : c.session.machine.frame.args[index.toNat]? with
    | none => exact Client.has_nil
    | some v => exact has_handle hs (List.mem_append_left _ (List.mem_of_getElem? harg))
  · exact Client.has_nil

theorem played_held (hs : c.Sound) (name : Bytes) :
    Played c (Action.step ev (.held name)) Client.Has := by
  refine .read rfl rfl ?_
  show c.Has ((c.session.machine.frame.held.lookup name).getD .nil)
  cases hheld : c.session.machine.frame.held.lookup name with
  | none => exact Client.has_nil
  | some v =>
    exact has_handle hs
      (List.mem_append_right _ (List.mem_map.mpr ⟨(name, v), mem_of_lookup hheld, rfl⟩))

/-- **One expression**, given that its parts are played. -/
theorem played_step (hev : ∀ e (c : Client), c.Sound → Played c (ev e) Client.Has)
    (hs : c.Sound) (e : Expr) : Played c (Action.step ev e) Client.Has := by
  cases e with
  | nil => exact .read rfl rfl Client.has_nil
  | boolean b => exact .read rfl rfl (Client.has_boolean b)
  | number x => exact .read rfl rfl (Client.has_number x)
  | string text => exact .read rfl rfl (Client.has_string text)
  | list items =>
    exact .bind hs (played_evalAll hev hs items) fun c' values hs' _ hv =>
      played_newList fun v hmem => hs'.valid (hv v hmem)
  | object entries =>
    exact .bind hs (played_evalPairs hev hs entries) fun c' pairs hs' _ hpairs =>
      played_objectOf hs' (fun v hv => hs'.valid (hpairs.1 v hv))
        (fun v hv => hs'.valid (hpairs.2 v hv))
  | function body captured =>
    exact .bind hs (played_resolveAll hs captured) fun c' cells _ _ _ => played_newFunction _ _
  | nest count wrapping e =>
    exact .bind hs (hev e c hs) fun c' v hs' _ hv => played_wrapTimes hs' wrapping count hv
  | bind name e => exact .bind hs (hev e c hs) fun c' v hs' _ hv => played_bind hs' hv
  | get ref =>
    exact .bind hs (played_resolve hs ref) fun c' cell _ _ _ => played_readCell cell
  | assign ref e =>
    refine .bind hs (played_resolve hs ref) fun c₁ cell hs₁ _ _ => ?_
    refine .bind hs₁ (hev e c₁ hs₁) fun c₂ v hs₂ _ hv => ?_
    exact .bind hs₂ (played_writeCell cell (hs₂.valid hv)) fun c₃ _ _ _ _ => played_readCell cell
  | copyTo ref e =>
    refine .bind hs (played_resolve hs ref) fun c₁ cell hs₁ _ _ => ?_
    refine .bind hs₁ (hev e c₁ hs₁) fun c₂ v hs₂ _ hv => ?_
    exact .bind hs₂ (played_writeCell cell (hs₂.valid hv)) fun c₃ _ _ _ _ =>
      .read rfl rfl Client.has_nil
  | argument index => exact played_argument hs index
  | hold name e => exact .bind hs (hev e c hs) fun c' v hs' _ hv => played_hold hs' hv
  | held name => exact played_held hs name
  | ifThenElse condition yes no =>
    refine .bind hs (hev condition c hs) fun c' result hs' _ _ => .view ?_
    split
    · exact hev yes c' hs'
    · exact hev no c' hs'
  | seq es => exact played_evalLast hev hs es
  | times count e => exact played_evalTimes hev hs e count Client.has_nil
  | iterate name e =>
    exact .bind hs (hev e c hs) fun c' v hs' _ hv => played_iterate (hs'.valid hv)
  | hasNext name => exact played_hasNext hs name
  | next name => exact played_next hs name
  | apply primitive args =>
    exact .bind hs (played_evalAll hev hs args) fun c' values hs' _ hv =>
      played_performOn hs' primitive hv
  | call calling args =>
    exact .bind hs (played_evalAll hev hs args) fun c' values hs' _ hv =>
      played_runCalling hev hs' calling hv

end Evaluator

/-- **Evaluation is a play**, whatever fuel it is given. -/
theorem played_eval (fuel : Nat) (e : Expr) (c : Client) (hs : c.Sound) :
    Played c (Action.eval fuel e) Client.Has := by
  induction fuel generalizing e c with
  | zero => exact .stop rfl rfl fun _ _ hstop => by cases hstop
  | succ fuel ih => exact played_step ih hs e

/-- **A traced action** of a session: a run does what it does, and it misses a value only where
    an object is out of balance. -/
structure Traced {α : Type} (s : Session) (action : Action α) : Prop where
  run : ∃ ops, Run s ops (s.after action)
  index : ∀ index length, s.result action = .error (.fault (.indexOutOfRange index length)) →
    ¬(s.after action).heap.Balanced

/-- **Evaluation is a run**, since the client that has what the frames hold can play it. -/
theorem traced_eval (fuel : Nat) (e : Expr) (s : Session) (hs : s.Sound) :
    Traced s (Action.eval fuel e) := by
  have hplayed := played_eval fuel e (.of s) (Client.sound_of hs)
  obtain ⟨moves, c', hplay, hsession, -⟩ := hplayed.play
  have hrun := hplay.run
  rw [hsession] at hrun
  exact ⟨⟨_, hrun⟩, hplayed.index⟩

/-! ## Loading an image -/

/-- **How a load runs:** all values are read, and then they are assigned one after the other. -/
theorem Image.run_load (image : Image) (m : Machine) :
    image.load.run m = match image.values with
      | .ok values => (.ok values.length, values.foldl (fun m e => m.setGlobal e.1 e.2) m)
      | .error e => (.error e, m) := by
  cases hvalues : image.values with
  | error e =>
    unfold Image.load
    rw [hvalues]
    rfl
  | ok values =>
    have hassign : ∀ (values : List (Bytes × Datum)) (count : Nat) (m : Machine),
        ExceptT.run (do
          values.forM fun entry => modify (·.setGlobal entry.1 entry.2)
          return count : ExceptT ImageError (StateM Machine) Nat) m
          = (.ok count, values.foldl (fun m e => m.setGlobal e.1 e.2) m) := by
      intro values count
      induction values with
      | nil => exact fun m => rfl
      | cons entry rest ih => exact fun m => ih (m.setGlobal entry.1 entry.2)
    unfold Image.load
    rw [hvalues]
    exact hassign values values.length m

theorem Image.loadGlobals_eq (image : Image) (m : Machine) :
    image.loadGlobals m = (do
      let values ← image.values
      return (values.length, values.foldl (fun m e => m.setGlobal e.1 e.2) m)) := by
  unfold Image.loadGlobals
  rw [Image.run_load]
  cases image.values <;> rfl

/-- What an image gives was decoded. -/
theorem Image.decoded_of_values {image : Image} {values : List (Bytes × Datum)}
    (hok : image.values = .ok values) {name : Bytes} {d : Datum} (hd : (name, d) ∈ values) :
    ∃ input, Codec.decode input = .ok d := by
  obtain ⟨names, -, hmap⟩ := bind_eq_ok hok
  obtain ⟨name', -, hget⟩ := mem_of_mapM hmap hd
  obtain ⟨d', hd', hpair⟩ := bind_eq_ok hget
  cases hpair
  obtain ⟨rows, -, hrow⟩ := bind_eq_ok hd'
  split at hrow
  · cases hrow
  · next row _ =>
    unfold Image.decodeRow at hrow
    split at hrow
    · next value hdecode =>
      cases hrow
      exact ⟨row.data, hdecode⟩
    · cases hrow

/-- Storing contents in a global is a run that changes no container. -/
theorem run_setGlobal {s : Session} (hs : s.Sound) (name : Bytes) {contents : Contents}
    (hbuild : (Operation.build contents).Allowed s) :
    ∃ ops, Run s ops ⟨s.machine.setGlobal name (contents.datum s.heap), s.callers⟩ ∧
      ∀ op ∈ ops, op.uses = [] := by
  let laid := s.heap.alloc (contents.datum s.heap)
  have hglobal : (Operation.globalCell name).Allowed (s.perform (.build contents)) :=
    fun v hv => by cases hv
  have hchange := Session.Change.perform hs hbuild
  have hlater := (Session.Change.perform hchange.sound hglobal).later
  obtain ⟨cell, hcell⟩ := Session.result_globalCell (s.perform (.build contents)) name
  have hwrite : (Operation.writeCell (some cell) laid.1).Allowed
      ((s.perform (.build contents)).perform (.globalCell name)) := by
    intro v hv
    rw [List.mem_singleton.mp hv]
    exact hlater.valid (Heap.Change.alloc hs.heap _).root_valid
  -- The three steps of the store are three operations, in the order they are made.
  have hafter : (⟨s.machine.setGlobal name (contents.datum s.heap), s.callers⟩ : Session)
      = ((s.perform (.build contents)).perform (.globalCell name)).perform
          (.writeCell (some cell) laid.1) :=
    (Session.bind_of_ok hcell fun cell => Action.writeCell (some cell) laid.1).2
  refine ⟨[.build contents, .globalCell name, .writeCell (some cell) laid.1], ?_, ?_⟩
  · rw [hafter]
    exact .step hbuild (.step hglobal (.single hwrite))
  · intro op hop
    simp only [List.mem_cons, List.not_mem_nil, or_false] at hop
    rcases hop with rfl | rfl | rfl <;> rfl

/-- Storing what was decoded in a global is such a run. -/
theorem run_setGlobal_decoded {s : Session} (hs : s.Sound) (name : Bytes) {input : Bytes}
    {d : Datum} (hd : Codec.decode input = .ok d) :
    ∃ ops, Run s ops ⟨s.machine.setGlobal name d, s.callers⟩ ∧
      ∀ op ∈ ops, op.uses = [] := by
  have hdatum : (Contents.decoded input).datum s.heap = d := by
    rw [Contents.datum, hd]
    rfl
  have hbuild : (Operation.build (.decoded input)).Allowed s := fun v hv => by cases hv
  rw [← hdatum]
  exact run_setGlobal hs name hbuild

/-- **Loading an image is a run** that changes no container. -/
theorem run_loadGlobals {s : Session} (hs : s.Sound) {image : Image} {count : Nat} {m : Machine}
    (hload : image.loadGlobals s.machine = .ok (count, m)) :
    ∃ ops, Run s ops ⟨m, s.callers⟩ ∧ ∀ op ∈ ops, op.uses = [] := by
  rw [Image.loadGlobals_eq] at hload
  obtain ⟨values, hvalues, hdone⟩ := bind_eq_ok hload
  cases hdone
  have hdecoded : ∀ entry ∈ values, ∃ input, Codec.decode input = .ok entry.2 :=
    fun entry hentry => Image.decoded_of_values hvalues hentry
  clear hload hvalues
  induction values generalizing s with
  | nil => exact ⟨[], .done s, fun op hop => by cases hop⟩
  | cons entry rest ih =>
    obtain ⟨input, hinput⟩ := hdecoded entry List.mem_cons_self
    obtain ⟨ops, hrun, hcalm⟩ := run_setGlobal_decoded hs entry.1 hinput
    obtain ⟨more, hmore, hcalm'⟩ := ih (hrun.sound hs) fun e he =>
      hdecoded e (List.mem_cons_of_mem _ he)
    refine ⟨ops ++ more, hrun.append hmore, ?_⟩
    intro op hop
    rcases List.mem_append.mp hop with hop' | hop'
    · exact hcalm op hop'
    · exact hcalm' op hop'

end ValueRuntime
