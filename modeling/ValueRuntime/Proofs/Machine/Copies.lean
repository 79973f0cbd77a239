import ValueRuntime.Proofs.Heap.Apart
import ValueRuntime.Proofs.Heap.Copying
import ValueRuntime.Proofs.Machine.Run

/-! # Work on a value and on its copy

    A program gets hold of the inside of a container by reading what is stored in it, and
    changes a container by appending, replacing an item, storing under a key, or storing at a
    subscript. *Work* through some handles is any sequence of such steps that begins with these
    handles.

    Work through what shares no node with a value leaves the contents of the value as they are.
    A copy shares no node with anything that was there before it, so work on either side is not
    seen on the other. Functions are the exception: a copy of a function is the same function.
-/

namespace ValueRuntime

/-- Whether a primitive changes a container, which is its first argument. -/
def Primitive.isContainerChange : Primitive → Bool
  | .append => true
  | .replaceItem => true
  | .store => true
  | .setSubscript => true
  | _ => false

namespace Session

variable {s s' : Session} {α β : Type}

/-! ## One change -/

/-- What only reads does not add to a change of the heap. -/
theorem heap_bind_of_read {x : Action α} {f : α → Action β}
    (hf : ∀ (s' : Session) a, (s'.after (f a)).heap = s'.heap) :
    (s.after (x >>= f)).heap = (s.after x).heap := by
  cases hx : s.result x with
  | error stop => rw [(bind_of_error hx f).2]
  | ok a => rw [(bind_of_ok hx f).2, hf]

theorem heap_ofFault (s : Session) (result : Except Fault α) :
    (s.after (Action.ofFault result)).heap = s.heap := by
  cases result <;> rfl

/-- Storing in an object goes through the object, also when it faults. -/
theorem changeThrough_store (hs : s.heap.Sound) (id : NodeId) (key v : Value) :
    Heap.ChangeThrough s.heap
      (s.after (Action.tryHeap fun h => do return ((), ← h.store id key v))).heap (.object id) := by
  cases hst : s.heap.store id key v with
  | ok h =>
    obtain ⟨hafter, -⟩ := tryHeap_of_ok (s := s) (a := ()) (h := h)
      (fun h => do return ((), ← h.store id key v)) (by rw [hst]; rfl)
    rw [hafter]
    exact Heap.ChangeThrough.store hs hst
  | error fault =>
    obtain ⟨hafter, -⟩ := tryHeap_of_error (s := s) (f := fault) (α := Unit)
      (fun h => do return ((), ← h.store id key v)) (by rw [hst]; rfl)
    rw [hafter]
    exact Heap.ChangeThrough.refl hs _

theorem changeThrough_setSubscript (hs : s.heap.Sound) (receiver index v : Value) :
    Heap.ChangeThrough s.heap (s.after (Action.setSubscript receiver index v)).heap receiver := by
  unfold Action.setSubscript
  split
  · next id key =>
    rw [heap_bind_of_read]
    · exact changeThrough_store hs id (.string key) v
    · intro s' _
      rw [(bind_get _).2]
      exact heap_ofFault s' _
  · next id x =>
    split
    · exact Heap.ChangeThrough.refl hs _
    · next position hposition => exact Heap.ChangeThrough.replaceItem hs id position v
  · exact Heap.ChangeThrough.refl hs _

/-- **A primitive that changes a container** goes through the container. -/
theorem changeThrough_perform {primitive : Primitive} {a : Value} (b c : Value)
    (hprimitive : primitive.isContainerChange = true) (hs : s.heap.Sound) (ha : s.heap.Valid a) :
    Heap.ChangeThrough s.heap (s.after (Action.perform primitive a b c)).heap a := by
  cases primitive with
  | append =>
    cases a with
    | list id =>
      have hafter : (s.after (Action.perform .append (.list id) b c)).heap
          = s.heap.append id b := by
        obtain ⟨l, hl⟩ := ha.list
        have hlist : s.heap.list? id = some l := Heap.list?_eq_some_iff.mpr hl
        simp only [Action.perform]
        rw [(bind_get _).2]
        have hsome : (s.machine.heap.list? id).isNone = false := by
          rw [show s.machine.heap = s.heap from rfl, hlist]
          rfl
        rw [hsome]
        rfl
      rw [hafter]
      exact Heap.ChangeThrough.append hs ha b
    | _ => exact Heap.ChangeThrough.refl hs _
  | replaceItem =>
    cases a with
    | list id =>
      simp only [Action.perform]
      cases b.position? with
      | none => exact Heap.ChangeThrough.refl hs _
      | some position => exact Heap.ChangeThrough.replaceItem hs id position c
    | _ => exact Heap.ChangeThrough.refl hs _
  | store =>
    cases a with
    | object id =>
      simp only [Action.perform]
      rw [heap_bind_of_read]
      · exact changeThrough_store hs id b c
      · intro s' _
        rfl
    | _ => exact Heap.ChangeThrough.refl hs _
  | setSubscript => exact changeThrough_setSubscript hs a b c
  | _ => cases hprimitive

end Session

/-! ## Sequences of changes -/

/-- **Work through handles:** what is stored in a handle is a handle too, and containers among
    the handles are changed. Whatever else a change is given does not matter. -/
inductive Works : Session → List Value → Session → Prop where
  | done (s : Session) (handles : List Value) : Works s handles s
  | read {s s' : Session} {handles : List Value} {v u : Value} {id : NodeId} {p : Place}
      (hv : v ∈ handles) (hid : v.node? = some id) (hu : s.heap.at? id p = some u)
      (rest : Works s (u :: handles) s') : Works s handles s'
  | change {s s' : Session} {handles : List Value} {primitive : Primitive} {v x y : Value}
      (hv : v ∈ handles) (hprimitive : primitive.isContainerChange = true)
      (rest : Works (s.after (Action.perform primitive v x y)) handles s') : Works s handles s'

/-- The handles of work that a value is not to notice: valid, and apart from the value. -/
def AllApart (h : Heap) (handles : List Value) (w : Value) : Prop :=
  ∀ v ∈ handles, h.Valid v ∧ h.Apart v w

/-- **Work on the one is not seen on the other.** The invariant is that all handles stay apart
    from the value. -/
theorem Works.view_eq {s s' : Session} {handles : List Value} {w : Value}
    (hwork : Works s handles s') (hs : s.heap.Sound) (hw : s.heap.Valid w)
    (hhandles : AllApart s.heap handles w) : s'.heap.view w = s.heap.view w := by
  induction hwork with
  | done s handles => rfl
  | @read s s' handles v u id p hv hid hu _ ih =>
    apply ih hs hw
    intro x hx
    rcases List.mem_cons.mp hx with rfl | hold
    · exact ⟨hs.stored id p x hu, (hhandles v hv).2.stored hid hu⟩
    · exact hhandles x hold
  | @change s s' handles primitive v x y hv hprimitive _ ih =>
    obtain ⟨hvalid, happart⟩ := hhandles v hv
    have hc := Session.changeThrough_perform x y hprimitive hs hvalid
    have hstep : (s.after (Action.perform primitive v x y)).heap.view w = s.heap.view w :=
      hc.view_eq hs hw happart
    rw [← hstep]
    apply ih hc.change.sound (hc.change.later.valid hw)
    intro u hu
    exact ⟨hc.change.later.valid (hhandles u hu).1, hc.apart hs hw happart (hhandles u hu).2⟩

/-! ## Copies -/

/-- A copy is apart from everything that was valid before it was made. -/
theorem Heap.apart_copy {h : Heap} {u v : Value} (hs : h.Sound) (hu : h.Valid u) :
    (h.copy v).2.Apart u (h.copy v).1 := by
  intro n hn hcopy
  have hnew : h.nodes.size ≤ n := le_of_reaches_copy hs hcopy
  have hold : h.Reaches u n := (older_alloc h (h.view v)).reaches hs hu hn
  have hlt : n < h.nodes.size := hs.reaches_lt_size hu hold
  exact absurd hlt (Nat.not_lt.mpr hnew)

/-- **A copy has the same contents in new nodes.** In every session that a run reaches:

    * The copy holds what its original holds. An object that was never given contents is an
      empty object in the copy, and nothing else differs.
    * Everything that the copy reaches is new, every old node stays as it was, and nothing
      but the heap changes.
    * Work through handles that were there before the copy, those of the original among them,
      leaves the contents of the copy, and work through the copy leaves the contents of
      everything that was there before. Tree, text, encoded form and truth are read off the
      contents.
    * A function in the original is the same function at the same place of the copy: it has
      the same callable and acts on the same captured cells. -/
theorem copy_is_independent {id name : Bytes} {writable : Bool} {ops : List Operation}
    {s : Session} (hrun : Run (.new id name writable) ops s) {v : Value} (hv : s.heap.Valid v) :
    ∃ w copied, s.result (Action.copy v) = .ok w ∧ s.after (Action.copy v) = copied ∧
      copied.heap.view w = (s.heap.view v).filled ∧
      ((s.heap.view v).isWhole = true → copied.heap.view w = s.heap.view v) ∧
      (∀ n, copied.heap.Reaches w n → s.heap.nodes.size ≤ n) ∧
      s.heap.Older copied.heap ∧ copied = s.withHeap copied.heap ∧
      (∀ handles s', (∀ u ∈ handles, s.heap.Valid u) → Works copied handles s' →
        s'.heap.view w = copied.heap.view w) ∧
      (∀ s', Works copied [w] s' → ∀ u, s.heap.Valid u → s'.heap.view u = s.heap.view u) ∧
      ∀ path f, s.heap.follow path v = some (.function f) →
        copied.heap.follow path w = some (.function f) := by
  have hs : s.heap.Sound := (hrun.sound (Session.sound_new id name writable)).heap
  have hc := Heap.Change.copy hs v
  have hview := Heap.view_copy hs v
  refine ⟨(s.heap.copy v).1, s.withHeap (s.heap.copy v).2, rfl, rfl, hview, ?_, ?_, ?_, rfl, ?_,
    ?_, ?_⟩
  · intro hwhole
    rw [← Datum.filled_of_isWhole hwhole]
    exact hview
  · intro n hn
    exact Heap.le_of_reaches_copy hs hn
  · exact Heap.older_alloc s.heap (s.heap.view v)
  · intro handles s' hhandles hwork
    apply hwork.view_eq hc.sound hc.root_valid
    intro u hu
    exact ⟨hc.later.valid (hhandles u hu), Heap.apart_copy hs (hhandles u hu)⟩
  · intro s' hwork u hu
    have hold : (s.heap.copy v).2.view u = s.heap.view u :=
      Heap.view_older hs (Heap.older_alloc s.heap (s.heap.view v)) hu
    rw [← hold]
    apply hwork.view_eq hc.sound (hc.later.valid hu)
    intro x hx
    rw [List.mem_singleton.mp hx]
    exact ⟨hc.root_valid, (Heap.apart_copy hs hu).symm⟩
  · intro path f hpath
    exact Heap.follow_copy hs hv hpath

/-- A list with a function and a copy of itself in it is copied, and the list in the copy is
    appended to. The function is in the copy, and the original has not changed. -/
theorem nested_copy_is_independent :
    ∃ s, Run (.new [] [] true)
        [.blank .list, .append 0 (.function (some 2)), .append 0 (.list 0)] s ∧
      s.heap.Valid (.list 0) ∧ s.heap.follow [.item 1, .item 0] (.list 0) = some (.function (some 2)) ∧
      ∃ w copied, s.result (Action.copy (.list 0)) = .ok w ∧
        s.after (Action.copy (.list 0)) = copied ∧
        copied.heap.at? 2 (.item 1) = some (.list 3) ∧
        copied.heap.follow [.item 1, .item 0] w = some (.function (some 2)) ∧
        (copied.after (Action.perform .append (.list 3) .nil .nil)).heap.view (.list 0)
          = s.heap.view (.list 0) := by
  have hblank : (Operation.blank .list).Allowed (.new [] [] true) := fun v hv => by cases hv
  let s₁ := (Session.new [] [] true).perform (.blank .list)
  have hs₁ : s₁.Sound := (Run.single hblank).sound (Session.sound_new [] [] true)
  have hlist : s₁.heap.Valid (.list 0) := by
    intro id hid
    cases hid
    exact ⟨.list (.of 0 #[]), rfl, trivial⟩
  have hfirst : (Operation.append 0 (.function (some 2))).Allowed s₁ := by
    intro v hv
    simp only [Operation.handles, List.mem_cons, List.not_mem_nil, or_false] at hv
    rcases hv with rfl | rfl
    · exact hlist
    · exact Heap.valid_function _
  let s₂ := s₁.perform (.append 0 (.function (some 2)))
  have hsecond : (Operation.append 0 (.list 0)).Allowed s₂ := by
    intro v hv
    simp only [Operation.handles, List.mem_cons, List.not_mem_nil, or_false, or_self] at hv
    rw [hv]
    exact ((Run.single hfirst).extends hs₁).valid hlist
  let s₃ := s₂.perform (.append 0 (.list 0))
  have hrest : Run s₁ [.append 0 (.function (some 2)), .append 0 (.list 0)] s₃ :=
    .step hfirst (.single hsecond)
  have hrun := Run.step hblank hrest
  have hvalid : s₃.heap.Valid (.list 0) := (hrest.extends hs₁).valid hlist
  have hfunction : s₃.heap.follow [.item 1, .item 0] (.list 0) = some (.function (some 2)) := by
    decide +kernel
  have hcopy : s₃.result (Action.copy (.list 0)) = .ok (.list 2) := by decide +kernel
  have hinner : (s₃.after (Action.copy (.list 0))).heap.at? 2 (.item 1) = some (.list 3) := by
    decide +kernel
  obtain ⟨w, copied, hresult, hafter, -, -, -, -, -, -, hthrough, hfunctions⟩ :=
    copy_is_independent hrun hvalid
  obtain rfl : w = .list 2 := by
    rw [hcopy] at hresult
    exact (Except.ok.inj hresult).symm
  subst hafter
  let copied := s₃.after (Action.copy (.list 0))
  have happend : Works copied [.list 3, .list 2]
      (copied.after (Action.perform .append (.list 3) .nil .nil)) := by
    refine .change List.mem_cons_self ?_ (.done _ _)
    rfl
  have hwork := Works.read (v := .list 2) List.mem_cons_self rfl hinner happend
  exact ⟨s₃, hrun, hvalid, hfunction, .list 2, _, hcopy, rfl, hinner, hfunctions _ _ hfunction,
    hthrough _ hwork (.list 0) hvalid⟩

end ValueRuntime
