import ValueRuntime.Proofs.Machine.Client

/-! # Actions are plays

    Whatever an action does to a session, a client can do by moves, and the value that the
    action gives is one that the client has in the end. `Played` says so of an action, together
    with a fact on how the action may stop: if a value was missing for a key then some object is
    out of balance.

    `Played` has one rule for each way to put actions together and one lemma for each action
    of a machine. The main result is `played_perform`, on the primitives.
-/

namespace ValueRuntime

/-! ## Reading the heap -/

namespace Heap

variable {h : Heap} {id : NodeId}

/-- A key without a value is a key of an object out of balance. -/
theorem not_balanced_of_valueAt {o : ObjectNode} (ho : h.object? id = some o) {index : Nat}
    {fault : Fault} (hindex : index < o.keys.size) (hv : valueAt o index = .error fault) :
    ¬h.Balanced := by
  intro hb
  have hsizes : o.keys.size = o.values.size := hb id _ (object?_eq_some_iff.mp ho)
  unfold valueAt at hv
  split at hv
  · cases hv
  · next hnone =>
    have := Array.getElem?_eq_none_iff.mp hnone
    omega

theorem not_balanced_of_lookup {key : Value} {fault : Fault}
    (hf : h.lookup id key = .error fault) : ¬h.Balanced := by
  unfold lookup at hf
  split at hf
  · cases hf
  · next o ho =>
    split at hf
    · next index hindex => exact not_balanced_of_valueAt ho (keyIndex?_lt hindex) hf
    · cases hf

theorem not_balanced_of_store {key v : Value} {index length : Nat}
    (hf : h.store id key v = .error (.indexOutOfRange index length)) : ¬h.Balanced := by
  rcases store_error_cases hf with ⟨-, hfault⟩ | ⟨o, found, ho, hindex, hge, -⟩
  · cases hfault
  · intro hb
    have hsizes : o.keys.size = o.values.size := hb id _ (object?_eq_some_iff.mp ho)
    have := keyIndex?_lt hindex
    omega

end Heap

namespace Client

variable {c : Client} {id : NodeId} {v : Value}

/-- What a client has, or need only read. -/
def Finds (c : Client) (v : Value) : Prop := c.Has v ∨ c.Reads v

theorem finds_of_node?_eq_none (hv : v.node? = none) : c.Finds v := .inl (.inl hv)

theorem Finds.item (hlist : c.Has (.list id)) {l : ListNode}
    (hl : c.heap.nodes[id]? = some (.list l)) {index : Nat} (hv : l.items[index]? = some v) :
    c.Finds v := by
  refine .inr (.inside (p := .item index) hlist rfl (by simp) ?_)
  rw [Heap.at?_of_node hl]
  exact hv

theorem finds_item (hlist : c.Has (.list id)) (index : Nat) : c.Finds (c.heap.item id index) := by
  unfold Heap.item
  cases hl : c.heap.list? id with
  | none => exact finds_of_node?_eq_none rfl
  | some l =>
    rw [Option.bind_some]
    cases hv : l.items[index]? with
    | none => exact finds_of_node?_eq_none rfl
    | some v => exact .item hlist (Heap.list?_eq_some_iff.mp hl) hv

/-- A walk meets items of the list, or items of a room that the list has left. -/
theorem finds_walkItem {walk : Heap.Walk} (hlist : c.Has (.list walk.node)) (index : Nat) :
    c.Finds (c.heap.walkItem walk index) := by
  unfold Heap.walkItem
  cases hl : c.heap.list? walk.node with
  | none => exact finds_of_node?_eq_none rfl
  | some l =>
    rw [Heap.list?_eq_some_iff] at hl
    dsimp only
    cases hroom : l.former[walk.moves]? with
    | none =>
      rw [Option.getD_none]
      cases hv : l.items[index]? with
      | none => exact finds_of_node?_eq_none rfl
      | some v => exact .item hlist hl hv
    | some room =>
      rw [Option.getD_some]
      cases hv : room[index]? with
      | none => exact finds_of_node?_eq_none rfl
      | some v =>
        refine .inr (.former hlist rfl hl (List.mem_flatMap.mpr ⟨room, ?_, ?_⟩))
        · exact Array.mem_toList_iff.mpr (Array.mem_of_getElem? hroom)
        · exact Array.mem_toList_iff.mpr (Array.mem_of_getElem? hv)

theorem finds_valueAt (hobject : c.Has (.object id)) {o : ObjectNode}
    (ho : c.heap.object? id = some o) {index : Nat} (hv : Heap.valueAt o index = .ok v) :
    c.Finds v := by
  unfold Heap.valueAt at hv
  split at hv
  · next w hw =>
    cases hv
    refine .inr (.inside (p := .value index) hobject rfl (by simp) ?_)
    rw [Heap.at?_of_node (Heap.object?_eq_some_iff.mp ho)]
    exact hw
  · cases hv

theorem finds_lookup (hobject : c.Has (.object id)) {key : Value}
    (hv : c.heap.lookup id key = .ok v) : c.Finds v := by
  unfold Heap.lookup at hv
  split at hv
  · cases hv
    exact finds_of_node?_eq_none rfl
  · next o ho =>
    split at hv
    · exact finds_valueAt hobject ho hv
    · cases hv
      exact finds_of_node?_eq_none rfl

end Client

/-! ## Rules -/

/-- **A played action** of a client: moves do what it does, its result is as expected, and it
    misses a value only where an object is out of balance. -/
structure Played {α : Type} (c : Client) (action : Action α) (good : Client → α → Prop) :
    Prop where
  play : ∃ moves c', Play c moves c' ∧ c'.session = c.session.after action ∧
    ∀ a, c.session.result action = .ok a → good c' a
  index : ∀ index length,
    c.session.result action = .error (.fault (.indexOutOfRange index length)) →
      ¬(c.session.after action).heap.Balanced

namespace Played

variable {c : Client} {α β : Type} {x : Action α} {f : α → Action β}
  {P : Client → α → Prop} {Q : Client → β → Prop}

/-- An action that only reads. -/
theorem read {a : α} (hafter : c.session.after x = c.session)
    (hresult : c.session.result x = .ok a) (ha : P c a) : Played c x P where
  play := by
    refine ⟨[], c, .done c, hafter.symm, ?_⟩
    intro b hb
    rw [hresult] at hb
    cases hb
    exact ha
  index := by
    intro index length hf
    rw [hresult] at hf
    cases hf

/-- A client may read something, or be shown a key, before an action begins. -/
theorem after_move {move : Move} (allowed : move.Allowed c)
    (hsame : (c.play move).session = c.session) (hx : Played (c.play move) x P) :
    Played c x P := by
  obtain ⟨moves, c', hplay, hafter, hgood⟩ := hx.play
  rw [hsame] at hafter hgood
  refine ⟨⟨move :: moves, c', .step allowed hplay, hafter, hgood⟩, ?_⟩
  rw [← hsame]
  exact hx.index

/-- A client may get hold of a value that it finds before an action begins. -/
theorem having (hs : c.Sound) {v : Value} (hv : c.Finds v)
    (hx : ∀ c' : Client, c'.session = c.session → c'.Sound → c.Later c' → c'.Has v →
      Played c' x P) : Played c x P := by
  rcases hv with hhas | hreads
  · exact hx c rfl hs (.refl c) hhas
  · have hmove : (Move.read v).Allowed c := hreads
    exact after_move hmove rfl
      (hx _ rfl (hs.play hmove) (Client.later_play hs hmove) (.inr List.mem_cons_self))

/-- An action that gives a value which the client finds. -/
theorem find {x : Action Value} {v : Value} (hafter : c.session.after x = c.session)
    (hresult : c.session.result x = .ok v) (hv : c.Finds v) : Played c x Client.Has := by
  rcases hv with hhas | hreads
  · exact read hafter hresult hhas
  · have hmove : (Move.read v).Allowed c := hreads
    exact after_move hmove rfl (read hafter hresult (.inr List.mem_cons_self))

/-- An action that stops at once, and not for a missing value. -/
theorem stop {stop : Stop} (hafter : c.session.after x = c.session)
    (hresult : c.session.result x = .error stop)
    (hstop : ∀ index length, stop ≠ .fault (.indexOutOfRange index length)) : Played c x P where
  play := by
    refine ⟨[], c, .done c, hafter.symm, ?_⟩
    intro b hb
    rw [hresult] at hb
    cases hb
  index := by
    intro index length hf
    rw [hresult] at hf
    cases hf
    exact absurd rfl (hstop index length)

/-- An action that stops at once because of a fault. -/
theorem fault {fault : Fault} (hafter : c.session.after x = c.session)
    (hresult : c.session.result x = .error (.fault fault))
    (hindex : ∀ index length, fault = .indexOutOfRange index length → ¬c.heap.Balanced) :
    Played c x P where
  play := by
    refine ⟨[], c, .done c, hafter.symm, ?_⟩
    intro b hb
    rw [hresult] at hb
    cases hb
  index := by
    intro index length hf
    rw [hresult] at hf
    cases hf
    rw [hafter]
    exact hindex index length rfl

/-- An action that is one operation. -/
theorem op (op : Operation) {a : α} (allowed : (Move.operate op).Allowed c)
    (hafter : c.session.after x = c.session.perform op) (hresult : c.session.result x = .ok a)
    (ha : P (c.play (.operate op)) a) : Played c x P where
  play := by
    refine ⟨[.operate op], _, .single allowed, hafter.symm, ?_⟩
    intro b hb
    rw [hresult] at hb
    cases hb
    exact ha
  index := by
    intro index length hf
    rw [hresult] at hf
    cases hf

/-- One action after the other, which may depend on all that the first one did. -/
theorem bindAfter (hs : c.Sound) (hx : Played c x P)
    (hf : ∀ (c' : Client) (a : α), c'.session = c.session.after x → c.session.result x = .ok a →
      c'.Sound → c.Later c' → P c' a → Played c' (f a) Q) : Played c (x >>= f) Q := by
  obtain ⟨moves, c', hplay, hsession, hgood⟩ := hx.play
  cases hresult : c.session.result x with
  | error stop =>
    -- The second action is not begun: the moves and the fault are those of the first.
    obtain ⟨hsame, hafter⟩ := Session.bind_of_error hresult f
    refine ⟨⟨moves, c', hplay, hsession.trans hafter.symm, ?_⟩, ?_⟩
    · intro b hb
      rw [hsame] at hb
      cases hb
    · intro index length hstop
      rw [hsame] at hstop
      cases hstop
      rw [hafter]
      exact hx.index index length hresult
  | ok a =>
    obtain ⟨hsame, hafter⟩ := Session.bind_of_ok hresult f
    have hrest := hf c' a hsession hresult (hplay.sound hs) (hplay.later hs) (hgood a hresult)
    obtain ⟨more, c'', hmore, hsession', hgood'⟩ := hrest.play
    have hindex := hrest.index
    rw [hsession] at hsession' hgood' hindex
    refine ⟨⟨moves ++ more, c'', hplay.append hmore, hsession'.trans hafter.symm, ?_⟩, ?_⟩
    · rw [hsame]
      exact hgood'
    · rw [hsame, hafter]
      exact hindex

/-- **One action after the other.** -/
theorem bind (hs : c.Sound) (hx : Played c x P)
    (hf : ∀ (c' : Client) (a : α), c'.Sound → c.Later c' → P c' a → Played c' (f a) Q) :
    Played c (x >>= f) Q :=
  bindAfter hs hx fun c' a _ _ hs' hlater ha => hf c' a hs' hlater ha

/-- An action that does the same as a played one. -/
theorem congr {y : Action α} (hy : Played c y P)
    (hafter : c.session.after x = c.session.after y)
    (hresult : c.session.result x = c.session.result y) : Played c x P where
  play := by
    rw [hafter, hresult]
    exact hy.play
  index := by
    rw [hafter, hresult]
    exact hy.index

/-- An action may look at the machine first. -/
theorem get {f : Machine → Action β} (hf : Played c (f c.session.machine) Q) :
    Played c (MonadState.get >>= f) Q :=
  hf.congr rfl rfl

/-- An action may look at the contents of a value first. -/
theorem view {f : Datum → Action β} {v : Value} (hf : Played c (f (c.heap.view v)) Q) :
    Played c (Action.view v >>= f) Q :=
  hf.congr rfl rfl

/-- **A call:** a frame is entered, its code runs, and the frame is left. -/
theorem inFrame {x : Action Value} {captured : List (Option CellId)} {args : List Value}
    (hs : c.Sound) (hargs : ∀ v ∈ args, c.Has v)
    (hx : ∀ c' : Client, c'.Sound → Played c' x Client.Has) :
    Played c (Action.inFrame (.ofCall captured args) x) Client.Has := by
  have hallowed : (Move.operate (.enter captured args)).Allowed c :=
    ⟨fun v hv => hs.valid (hargs v hv), hargs⟩
  have hbody := hx _ (hs.play hallowed)
  obtain ⟨moves, c', hplay, hsession, hgood⟩ := hbody.play
  have hleave : (Move.operate .leave).Allowed c' :=
    Operation.allowed_of_valid (fun v hv => by cases hv) rfl
  refine ⟨⟨.operate (.enter captured args) :: (moves ++ [.operate .leave]), _,
    .step hallowed (hplay.append (.single hleave)), ?_, ?_⟩, hbody.index⟩
  · show c'.session.perform .leave = _
    rw [hsession]
    rfl
  · intro v hv
    exact (hgood v hv).imp id (List.mem_cons_of_mem _)

end Played

section Actions

variable {c : Client}

/-! ## Making values -/

/-- A new value made of contents that are valid now. -/
theorem played_build (contents : Contents) (hvalid : ∀ v ∈ contents.handles, c.heap.Valid v)
    {step : Heap → Value × Heap}
    (hstep : step c.heap = c.heap.alloc (contents.datum c.heap)) :
    Played c (Action.onHeap step) Client.Has := by
  have hafter : c.session.after (Action.onHeap step) = c.session.perform (.build contents) := by
    rw [Session.after_onHeap]
    exact congrArg (fun made : Value × Heap => c.session.withHeap made.2) hstep
  have hresult : c.session.result (Action.onHeap step)
      = .ok (c.heap.alloc (contents.datum c.heap)).1 := by
    rw [Session.result_onHeap]
    exact congrArg (fun made : Value × Heap => Except.ok made.1) hstep
  exact .op (.build contents) ⟨hvalid, fun v hv => by cases hv⟩ hafter hresult
    (.inr List.mem_cons_self)

theorem played_copy {v : Value} (hv : c.heap.Valid v) : Played c (Action.copy v) Client.Has :=
  played_build (.value v) (by simpa [Contents.handles] using hv) rfl

theorem played_newList {values : List Value} (hvalues : ∀ v ∈ values, c.heap.Valid v) :
    Played c (Action.newList values) Client.Has :=
  played_build (.list values) hvalues rfl

/-- The contents of a scalar, which need no heap. -/
def Datum.IsScalar (d : Datum) : Prop := ∃ v : Value, v.node? = none ∧ ∀ h : Heap, h.view v = d

theorem isScalar_nil : Datum.nil.IsScalar :=
  ⟨.nil, rfl, fun h => by simp [Heap.view, Heap.viewWithin]⟩

theorem isScalar_boolean (b : Bool) : (Datum.boolean b).IsScalar :=
  ⟨.boolean b, rfl, fun h => by simp [Heap.view, Heap.viewWithin]⟩

theorem isScalar_number (x : Number) : (Datum.number x).IsScalar :=
  ⟨.number x, rfl, fun h => by simp [Heap.view, Heap.viewWithin]⟩

theorem isScalar_string (t : Bytes) : (Datum.string t).IsScalar :=
  ⟨.string t, rfl, fun h => by simp [Heap.view, Heap.viewWithin]⟩

/-- A scalar is laid out as itself. -/
theorem Datum.IsScalar.view_layout {d : Datum} (hd : d.IsScalar) (h : Heap) (base : NodeId) :
    h.view (Heap.layout base d).result = d := by
  obtain ⟨v, hv, hview⟩ := hd
  have hd' : Heap.empty.view v = d := hview .empty
  cases v with
  | list id => cases hv
  | object id => cases hv
  | _ =>
    simp only [Heap.view, Heap.viewWithin] at hd'
    subst hd'
    simp [Heap.layout, Heap.view, Heap.viewWithin]

theorem played_allocScalar {d : Datum} (hd : d.IsScalar) :
    Played c (Action.alloc d) Client.Has := by
  obtain ⟨v, hv, hview⟩ := hd
  refine played_build (.value v) ?_ (by rw [Contents.datum, hview])
  intro w hw
  rw [List.mem_singleton.mp hw]
  exact Heap.valid_of_node?_eq_none hv

theorem Operator.isScalar_onNumbers (f : Number → Number → Number) (a b : Datum) :
    (onNumbers f a b).IsScalar := by
  unfold onNumbers
  split
  · exact isScalar_number _
  · exact isScalar_nil

/-- Operators make no containers. -/
theorem Operator.isScalar_apply (op : Operator) {a b d : Datum} (hok : op.apply a b = .ok d) :
    d.IsScalar := by
  cases op with
  | add =>
    have htexts : ∀ d', (do
        let left ← a.text
        let right ← b.text
        return Datum.string (left ++ right)) = .ok d' → d'.IsScalar := by
      intro d' hjoin
      obtain ⟨left, -, hrest⟩ := bind_eq_ok hjoin
      obtain ⟨right, -, hdone⟩ := bind_eq_ok hrest
      cases hdone
      exact isScalar_string _
    simp only [Operator.apply] at hok
    unfold addData at hok
    split at hok
    · cases hok
      exact isScalar_number _
    · exact htexts d hok
    · exact htexts d hok
    · cases hok
      exact isScalar_nil
  | subtract =>
    cases hok
    exact isScalar_onNumbers _ a b
  | divide =>
    cases hok
    exact isScalar_onNumbers _ a b
  | multiply =>
    cases hok
    unfold multiplyData
    split
    · split
      · split
        · exact isScalar_string _
        · exact isScalar_nil
      · exact isScalar_nil
    · exact isScalar_onNumbers _ a b
  | mod =>
    cases hok
    unfold modData
    split
    · next x y =>
      cases x.trunc.rem? y.trunc with
      | none => exact isScalar_nil
      | some r => exact isScalar_number r
    · exact isScalar_nil
  | _ =>
    cases hok
    exact isScalar_boolean _

theorem UnaryOperator.isScalar_apply (op : UnaryOperator) {a d : Datum}
    (hok : op.apply a = .ok d) : d.IsScalar := by
  cases op with
  | not =>
    cases hok
    exact isScalar_boolean _
  | negate =>
    simp only [UnaryOperator.apply] at hok
    split at hok
    · cases hok
      exact isScalar_number _
    · cases hok
      exact isScalar_nil
  | length =>
    cases hok
    cases a.length? with
    | none => exact isScalar_nil
    | some n => exact isScalar_number _
  | typeName =>
    cases hok
    exact isScalar_string _
  | toText =>
    obtain ⟨text, -, hdone⟩ := bind_eq_ok hok
    cases hdone
    exact isScalar_string _

/-! ## Cells and functions -/

theorem played_newCell {v : Value} (hv : c.heap.Valid v) :
    Played c (Action.newCell v) fun _ _ => True :=
  .op (.newCell v) (Operation.allowed_of_valid (by simpa [Operation.handles] using hv) rfl)
    rfl rfl trivial

theorem played_readCell (cell : Option CellId) :
    Played c (Action.readCell cell) Client.Has := by
  refine .find rfl rfl ?_
  cases cell with
  | none => exact Client.finds_of_node?_eq_none rfl
  | some id =>
    show c.Finds ((c.session.machine.cells[id]?).getD .nil)
    cases hcell : c.session.machine.cells[id]? with
    | none => exact Client.finds_of_node?_eq_none rfl
    | some v =>
      have hstored : c.session.at? (.cell id) = some v := hcell
      exact .inr (.outside (by trivial) hstored)

theorem played_writeCell (cell : Option CellId) {v : Value} (hv : c.heap.Valid v) :
    Played c (Action.writeCell cell v) fun _ _ => True := by
  have hallowed : (Move.operate (.writeCell cell v)).Allowed c :=
    Operation.allowed_of_valid (by simpa [Operation.handles] using hv) rfl
  cases cell with
  | none => exact .op (.writeCell none v) hallowed rfl rfl trivial
  | some id => exact .op (.writeCell (some id) v) hallowed rfl rfl trivial

theorem played_globalCell (name : Bytes) :
    Played c (Action.globalCell name) fun _ _ => True := by
  obtain ⟨cell, hcell⟩ := Session.result_globalCell c.session name
  exact .op (.globalCell name) (Operation.allowed_of_valid (fun v hv => by cases hv) rfl)
    rfl hcell trivial

theorem played_resolve (hs : c.Sound) (ref : CellRef) :
    Played c (Action.resolve ref) fun _ _ => True := by
  cases ref with
  | ofLocal name => exact .read rfl rfl trivial
  | ofCapture index => exact .read rfl rfl trivial
  | ofGlobal name =>
    exact .bind hs (played_globalCell name) fun c' cell _ _ _ => .read rfl rfl trivial
  | absent => exact .read rfl rfl trivial

theorem played_resolveAll (hs : c.Sound) (refs : List CellRef) :
    Played c (Action.resolveAll refs) fun _ _ => True := by
  induction refs generalizing c with
  | nil => exact .read rfl rfl trivial
  | cons ref rest ih =>
    refine .bind hs (played_resolve hs ref) fun c' first hs' _ _ => ?_
    exact .bind hs' (ih hs') fun c'' more _ _ _ => .read rfl rfl trivial

theorem played_newFunction (entry : Option Entry) (captured : List (Option CellId)) :
    Played c (Action.newFunction entry captured) Client.Has :=
  .op (.newFunction entry captured) (Operation.allowed_of_valid (fun v hv => by cases hv) rfl)
    rfl rfl (Client.has_function _)

/-! ## Storing -/

theorem played_append (hs : c.Sound) {id : NodeId} {v : Value} (hid : c.Has (.list id))
    (hv : c.heap.Valid v) :
    Played c (Action.onHeap fun h => ((), h.append id v)) fun _ _ => True := by
  refine .op (.append id v) ⟨?_, by simpa [Operation.uses] using hid⟩
    (Session.after_onHeap _) (Session.result_onHeap _) trivial
  intro w hw
  rcases List.mem_cons.mp hw with rfl | hw'
  · exact hs.valid hid
  · rw [List.mem_singleton.mp hw']
    exact hv

theorem played_replaceItem (hs : c.Sound) {id : NodeId} {v : Value} (index : Nat)
    (hid : c.Has (.list id)) (hv : c.heap.Valid v) :
    Played c (Action.onHeap (·.replaceItem id index v)) fun _ _ => True := by
  refine .op (.replaceItem id index v) ⟨?_, by simpa [Operation.uses] using hid⟩
    (Session.after_onHeap _) (Session.result_onHeap _) trivial
  intro w hw
  rcases List.mem_cons.mp hw with rfl | hw'
  · exact hs.valid hid
  · rw [List.mem_singleton.mp hw']
    exact hv

/-- Storing in an object: the key may lack a value to replace. -/
theorem played_store (hs : c.Sound) {id : NodeId} {key v : Value} (hid : c.Has (.object id))
    (hkey : c.heap.Valid key) (hv : c.heap.Valid v) :
    Played c (Action.tryHeap fun h => do return ((), ← h.store id key v)) fun _ _ => True := by
  have hallowed : (Move.operate (.store id key v)).Allowed c := by
    refine ⟨?_, by simpa [Operation.uses] using hid⟩
    intro w hw
    simp only [Operation.handles, List.mem_cons, List.not_mem_nil, or_false] at hw
    rcases hw with rfl | rfl | rfl
    · exact hs.valid hid
    · exact hkey
    · exact hv
  cases hst : c.session.heap.store id key v with
  | ok h =>
    obtain ⟨hafter, hresult⟩ := Session.tryHeap_of_ok (s := c.session) (a := ()) (h := h)
      (fun h => do return ((), ← h.store id key v)) (by rw [hst]; rfl)
    have hperform : c.session.perform (.store id key v) = c.session.withHeap h := by
      simp only [Session.perform, hst]
    exact .op _ hallowed (hafter.trans hperform.symm) hresult trivial
  | error fault =>
    obtain ⟨hafter, hresult⟩ := Session.tryHeap_of_error (s := c.session) (f := fault)
      (α := Unit) (fun h => do return ((), ← h.store id key v)) (by rw [hst]; rfl)
    refine .fault hafter hresult ?_
    rintro index length rfl
    exact Heap.not_balanced_of_store hst

/-- Building an object from valid values succeeds. -/
theorem played_objectOf (hs : c.Sound) {keys values : List Value}
    (hkeys : ∀ v ∈ keys, c.heap.Valid v) (hvalues : ∀ v ∈ values, c.heap.Valid v) :
    Played c (Action.tryHeap (·.objectOf keys values)) Client.Has := by
  obtain ⟨v, h, hob, -⟩ := Heap.objectOf_balanced hs.session.heap hkeys hvalues
  obtain ⟨hafter, hresult⟩ := Session.tryHeap_of_ok (·.objectOf keys values) hob
  have hperform : c.session.perform (.objectOf keys values) = c.session.withHeap h := by
    simp only [Session.perform, hob]
  have hmade : (Operation.objectOf keys values).result c.session = v := by
    simp only [Operation.result, hob]
  have hallowed : (Move.operate (.objectOf keys values)).Allowed c := by
    refine Operation.allowed_of_valid ?_ rfl
    intro w hw
    rcases List.mem_append.mp hw with hk | hv
    · exact hkeys w hk
    · exact hvalues w hv
  refine .op _ hallowed (hafter.trans hperform.symm) hresult (.inr ?_)
  rw [← hmade]
  exact List.mem_cons_self

theorem played_blank (kind : Blank) {x : Action Value}
    (hafter : c.session.after x = c.session.perform (.blank kind))
    (hresult : c.session.result x = .ok (kind.handle c.heap.nodes.size)) :
    Played c x Client.Has :=
  .op (.blank kind) (Operation.allowed_of_valid (fun w hw => by cases hw) rfl) hafter hresult
    (.inr List.mem_cons_self)

/-! ## Primitives -/

theorem after_ofFault {α : Type} (found : Except Fault α) :
    c.session.after (Action.ofFault found) = c.session := by
  cases found <;> rfl

theorem played_ofFault {α : Type} {found : Except Fault α} {P : Client → α → Prop}
    (hgood : ∀ a, found = .ok a → P c a)
    (hindex : ∀ index length, found = .error (.indexOutOfRange index length) →
      ¬c.heap.Balanced) : Played c (Action.ofFault found) P := by
  cases found with
  | ok a => exact .read (after_ofFault _) rfl (hgood a rfl)
  | error fault =>
    refine .fault (after_ofFault _) rfl ?_
    rintro index length rfl
    exact hindex index length rfl

/-- Finding a value, or that it is missing. -/
theorem played_found {found : Except Fault Value} (hgood : ∀ v, found = .ok v → c.Finds v)
    (hindex : ∀ index length, found = .error (.indexOutOfRange index length) →
      ¬c.heap.Balanced) : Played c (Action.ofFault found) Client.Has := by
  cases found with
  | ok v => exact .find (after_ofFault _) rfl (hgood v rfl)
  | error fault => exact played_ofFault (fun a ha => by cases ha) hindex

theorem played_lookup {id : NodeId} (hid : c.Has (.object id)) (key : Value) :
    Played c (do Action.ofFault ((← get).heap.lookup id key)) Client.Has := by
  refine .get (played_found ?_ ?_)
  · intro v hv
    exact Client.finds_lookup hid hv
  · intro index length hf
    exact Heap.not_balanced_of_lookup hf

theorem played_subscript {receiver : Value} (hreceiver : c.Has receiver) (index : Value) :
    Played c (Action.subscript receiver index) Client.Has := by
  unfold Action.subscript
  split
  · exact played_lookup hreceiver _
  · next id x =>
    refine .find rfl rfl ?_
    cases x.toNat? with
    | none => exact Client.finds_of_node?_eq_none rfl
    | some position => exact Client.finds_item hreceiver position
  · exact .read rfl rfl Client.has_nil

theorem played_setSubscript (hs : c.Sound) {receiver index v : Value}
    (hreceiver : c.Has receiver) (hindex : c.Has index) (hv : c.Has v) :
    Played c (Action.setSubscript receiver index v) Client.Has := by
  unfold Action.setSubscript
  split
  · next id key =>
    refine .bind hs (played_store hs hreceiver (hs.valid hindex) (hs.valid hv)) ?_
    exact fun c' _ _ hlater _ => played_lookup (hlater.has hreceiver) _
  · next id x =>
    split
    · exact .read rfl rfl Client.has_nil
    · next position hposition =>
      refine .bind hs (played_replaceItem hs position hreceiver (hs.valid hv)) ?_
      exact fun c' _ _ hlater _ =>
        .find rfl rfl (Client.finds_item (hlater.has hreceiver) position)
  · exact .read rfl rfl Client.has_nil

/-- Encoding needs every value of an object; decoding gives new contents. -/
theorem played_roundtrip (hs : c.Sound) {v : Value} (hv : c.Has v) :
    Played c (Action.roundtrip v) Client.Has := by
  refine .view ?_
  split
  · next cause hencode =>
    refine .fault rfl rfl ?_
    rintro index length rfl hb
    exact Codec.encode_ne_index (hb.view hs.session.heap (hs.valid hv)) index length hencode
  · exact .stop rfl rfl (fun _ _ hstop => by cases hstop)
  · next bytes hencode =>
    split
    · exact .stop rfl rfl (fun _ _ hstop => by cases hstop)
    · exact .stop rfl rfl (fun _ _ hstop => by cases hstop)
    · next d hdecode =>
      refine played_build (.decoded bytes) (fun w hw => by cases hw) ?_
      rw [Contents.datum, hdecode]
      rfl

theorem played_keyList {id : NodeId} (hid : c.heap.Valid (.object id)) :
    Played c (Action.onHeap (·.keyList id)) Client.Has := by
  refine played_build (.keys id) ?_ ?_
  · intro w hw
    rw [List.mem_singleton.mp hw]
    exact hid
  · simp only [Heap.keyList, Contents.datum]
    cases c.heap.object? id with
    | none => rfl
    | some o => rfl

/-- Printing needs every value of an object. -/
theorem played_print (hs : c.Sound) {v : Value} (hv : c.Has v) :
    Played c (Action.print v) fun _ _ => True := by
  have hallowed : (Move.operate (.print v)).Allowed c :=
    Operation.allowed_of_valid (by simpa [Operation.handles] using hs.valid hv) rfl
  refine ⟨⟨[.operate (.print v)], _, .single hallowed, rfl, fun _ _ => trivial⟩, ?_⟩
  intro index length hf
  rw [(Session.after_print c.session v).1]
  intro hb
  let counted : Session :=
    ⟨{ c.session.machine with prints := c.session.machine.prints + 1 }, c.session.callers⟩
  have hprint : c.session.result (Action.print v) = counted.result (do
      let text ← Action.ofFault (c.heap.view v).text
      modify fun m => if m.writable then { m with lines := text :: m.lines } else m) := rfl
  rw [hprint] at hf
  cases htext : (c.heap.view v).text with
  | ok text =>
    rw [htext] at hf
    cases hf
  | error fault =>
    rw [htext] at hf
    cases hf
    exact Datum.text_ne_index (hb.view hs.session.heap (hs.valid hv)) index length htext

theorem valid_listItems (hs : c.Sound) {id : NodeId} {v : Value}
    (hv : v ∈ (c.heap.list? id).elim [] (·.items.toList)) : c.heap.Valid v := by
  cases hl : c.heap.list? id with
  | none =>
    rw [hl] at hv
    cases hv
  | some l =>
    rw [hl] at hv
    obtain ⟨index, hindex⟩ := Heap.getElem?_eq_some_of_mem hv
    refine hs.session.heap.stored id (.item index) v ?_
    show c.heap.at? id (.item index) = some v
    rw [Heap.at?_of_node (Heap.list?_eq_some_iff.mp hl)]
    exact hindex

/-- The items of the list at a value are valid. -/
theorem played_listNode? (hs : c.Sound) (v : Value) :
    Played c (Action.listNode? v) fun c l =>
      ∀ w ∈ l.elim [] (·.items.toList), c.heap.Valid w := by
  cases v with
  | list id => exact .read rfl rfl fun w hw => valid_listItems hs hw
  | _ => exact .read rfl rfl fun w hw => by cases hw

/-- **Every primitive is a play.** -/
theorem played_perform (hs : c.Sound) (primitive : Primitive) {x y z : Value}
    (hx : c.Has x) (hy : c.Has y) (hz : c.Has z) :
    Played c (Action.perform primitive x y z) Client.Has := by
  cases primitive with
  | operator op =>
    -- An operator faults only where a text does, and there a value must be missing.
    refine .view (.view (.bind hs
      (played_ofFault (P := fun _ d => d.IsScalar) (fun d hd => op.isScalar_apply hd) ?_)
      fun c' d _ _ hd => played_allocScalar hd))
    intro index length hf hbal
    exact op.apply_ne_index (hbal.view hs.session.heap (hs.valid hx))
      (hbal.view hs.session.heap (hs.valid hy)) index length hf
  | unary op =>
    refine .view (.bind hs
      (played_ofFault (P := fun _ d => d.IsScalar) (fun d hd => op.isScalar_apply hd) ?_)
      fun c' d _ _ hd => played_allocScalar hd)
    intro index length hf hbal
    exact op.apply_ne_index (hbal.view hs.session.heap (hs.valid hx)) index length hf
  | dot =>
    cases x with
    | object id => exact played_lookup hx y
    | _ => exact .read rfl rfl Client.has_nil
  | subscript => exact played_subscript hx y
  | setSubscript => exact played_setSubscript hs hx hy hz
  | copy => exact played_copy (hs.valid hx)
  | isTruthy => exact .read rfl rfl (Client.has_boolean _)
  | isNil => exact .read rfl rfl (Client.has_boolean _)
  | asBoolean => exact .read rfl rfl (Client.has_boolean _)
  | asNumber => cases x <;> exact .read rfl rfl (Client.has_number _)
  | asString => exact .read rfl rfl (Client.has_string _)
  | hasPayload => exact .view (played_newList (by simp))
  | wrapList =>
    cases x with
    | list id => exact .read rfl rfl hx
    | _ => exact played_newList (by simp)
  | wrapObject =>
    cases x with
    | object id => exact .read rfl rfl hx
    | _ => exact played_blank .object rfl rfl
  | wrapFunction =>
    cases x with
    | function callable => exact .read rfl rfl (Client.has_function callable)
    | _ => exact .read rfl rfl Client.has_nil
  | roundtrip => exact played_roundtrip hs hx
  | newList => exact played_newList (by simp)
  | bareList => exact played_blank .list rfl rfl
  | listLength =>
    exact .bind hs (played_listNode? hs x) fun c' l _ _ _ => .read rfl rfl (Client.has_number _)
  | listCapacity =>
    exact .bind hs (played_listNode? hs x) fun c' l _ _ _ => .read rfl rfl (Client.has_number _)
  | listValues =>
    exact .bind hs (played_listNode? hs x) fun c' l _ _ hl => played_newList hl
  | append =>
    cases x with
    | list id =>
      obtain ⟨l, hl⟩ := (hs.valid hx).list
      refine .get ?_
      have hsome : (c.session.machine.heap.list? id).isNone = false :=
        congrArg Option.isNone (Heap.list?_eq_some_iff.mpr hl)
      rw [hsome]
      exact .bind hs (played_append hs hx (hs.valid hy)) fun c' _ _ _ _ =>
        .read rfl rfl Client.has_nil
    | _ => exact .stop rfl rfl (fun _ _ hstop => by cases hstop)
  | listItem =>
    cases x with
    | list id =>
      simp only [Action.perform]
      cases y.position? with
      | none => exact .read rfl rfl Client.has_nil
      | some position => exact .find rfl rfl (Client.finds_item hx position)
    | _ => exact .read rfl rfl Client.has_nil
  | replaceItem =>
    cases x with
    | list id =>
      simp only [Action.perform]
      cases y.position? with
      | none => exact .read rfl rfl (Client.has_boolean _)
      | some position =>
        exact .bind hs (played_replaceItem hs position hx (hs.valid hz)) fun c' _ _ _ _ =>
          .read rfl rfl (Client.has_boolean _)
    | _ => exact .read rfl rfl (Client.has_boolean _)
  | range =>
    refine .view (.view (.view (played_build (.range x y z) ?_ rfl)))
    intro v hv
    simp only [Contents.handles, List.mem_cons, List.not_mem_nil, or_false] at hv
    rcases hv with rfl | rfl | rfl
    · exact hs.valid hx
    · exact hs.valid hy
    · exact hs.valid hz
  | newObject => exact played_blank .object rfl rfl
  | bareObject => exact played_blank .hollow rfl rfl
  | objectOf =>
    refine .bind hs (played_listNode? hs x) fun c' keys hs' _ hkeys => ?_
    refine .bind hs' (played_listNode? hs' y) fun c'' values hs'' hlater hvalues => ?_
    exact played_objectOf hs'' (fun v hv => hlater.heap.valid (hkeys v hv)) hvalues
  | objectLength => cases x <;> exact .read rfl rfl (Client.has_number _)
  | objectKeys =>
    cases x with
    | object id => exact played_keyList (hs.valid hx)
    | _ => exact played_newList (by simp)
  | keys =>
    cases x with
    | object id => exact played_keyList (hs.valid hx)
    | _ => exact .read rfl rfl Client.has_nil
  | lookup =>
    cases x with
    | object id => exact played_lookup hx y
    | _ => exact .read rfl rfl Client.has_nil
  | hasKey => cases x <;> exact .read rfl rfl (Client.has_boolean _)
  | store =>
    cases x with
    | object id =>
      exact .bind hs (played_store hs hx (hs.valid hy) (hs.valid hz)) fun c' _ _ _ _ =>
        .read rfl rfl Client.has_nil
    | _ => exact .stop rfl rfl (fun _ _ hstop => by cases hstop)
  | bareFunction => exact .read rfl rfl (Client.has_function _)
  | captureCount =>
    cases x with
    | function callable => cases callable <;> exact .read rfl rfl (Client.has_number _)
    | _ => exact .read rfl rfl (Client.has_number _)
  | print =>
    exact .bind hs (played_print hs hx) fun c' _ _ _ _ => .read rfl rfl Client.has_nil
  | builtin =>
    refine .read rfl rfl ?_
    unfold Action.builtinFunction
    split
    · exact Client.has_function _
    · exact Client.has_nil
  | builtinNames => exact played_newList (by simp)
  | globalNames => exact .get (played_newList (by simp))
  | setGlobal =>
    refine .bind hs (played_globalCell x.stringOf) fun c' cell hs' hlater _ => ?_
    refine .bind hs' (played_writeCell (some cell) (hs'.valid (hlater.has hy))) ?_
    exact fun c'' _ _ _ _ => .read rfl rfl Client.has_nil
  | lookupGlobal => exact .get (played_readCell _)
  | hasGlobal => exact .read rfl rfl (Client.has_boolean _)
  | stats => exact .get (played_newList (by simp [Value.ofNat]))
  | runtimeName => exact .read rfl rfl (Client.has_string _)

end Actions

end ValueRuntime
