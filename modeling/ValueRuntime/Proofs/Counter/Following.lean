import ValueRuntime.Proofs.Counter.Steps

/-! # Counters through evaluation

    `Follows` says that a recorded action keeps track of the counters: the calls that it makes
    extend the log. It has a rule for each way to put actions together. A call is a call of a
    counter, makes a counter, or runs code that has no way to the cells of counters. With that,
    `follows_eval` is an induction on fuel.
-/

namespace ValueRuntime.Counter

/-- **A recorded action that keeps track of the counters**, with a fact on its result. Cells
    that were open stay open. -/
structure Follows {α : Type} (s : Session) (log : List Invocation) (x : Recorded α)
    (good : Session → List Invocation → α → Prop) : Prop where
  tracked : Tracked (s.after x.action) (log ++ x.calls s)
  stays : ∀ cell, IsOpen s log cell → IsOpen (s.after x.action) (log ++ x.calls s) cell
  good : ∀ a, s.result x.action = .ok a → good (s.after x.action) (log ++ x.calls s) a

/-- No fact on the result. -/
abbrev anything {α : Type} : Session → List Invocation → α → Prop := fun _ _ _ => True

variable {α β : Type} {s : Session} {log : List Invocation}

namespace Follows

variable {x : Recorded α} {f : α → Recorded β} {P : Session → List Invocation → α → Prop}
  {Q : Session → List Invocation → β → Prop}

/-- An action without calls that keeps the counters. -/
theorem lift {x : Action α} {good : Session → α → Prop} (ht : Tracked s log)
    (hx : Keeps s log x good) :
    Follows s log (liftM x) fun s' log' a => log' = log ∧ good s' a := by
  have hlog : log ++ (liftM x : Recorded α).calls s = log := List.append_nil log
  constructor
  · rw [hlog]
    exact ht.step hx.steps
  · rw [hlog]
    exact fun cell hcell => hx.steps.isOpen hcell
  · rw [hlog]
    exact fun a ha => ⟨rfl, hx.good a ha⟩

theorem pure (ht : Tracked s log) (a : α) : Follows s log (Pure.pure a) anything := by
  have hlog : log ++ (Pure.pure a : Recorded α).calls s = log := List.append_nil log
  constructor
  · rw [hlog]
    exact ht
  · rw [hlog]
    exact fun cell hcell => hcell
  · exact fun _ _ => trivial

/-- **One action after the other.** -/
theorem bind (hx : Follows s log x P)
    (hf : ∀ (s' : Session) (log' : List Invocation) (a : α), Tracked s' log' →
      (∀ cell, IsOpen s log cell → IsOpen s' log' cell) → P s' log' a →
        Follows s' log' (f a) Q) : Follows s log (x >>= f) Q := by
  cases hresult : s.result x.action with
  | error stop =>
    obtain ⟨hsame, hafter⟩ := Session.bind_of_error hresult fun a => (f a).action
    have hcalls := Recorded.calls_bind_of_error hresult f
    constructor
    · rw [Recorded.action_bind, hafter, hcalls]
      exact hx.tracked
    · rw [Recorded.action_bind, hafter, hcalls]
      exact hx.stays
    · intro b hb
      rw [Recorded.action_bind, hsame] at hb
      cases hb
  | ok a =>
    obtain ⟨hsame, hafter⟩ := Session.bind_of_ok hresult fun a => (f a).action
    have hrest := hf _ _ a hx.tracked hx.stays (hx.good a hresult)
    have hcalls := Recorded.calls_bind_of_ok hresult f
    constructor
    · rw [Recorded.action_bind, hafter, hcalls, ← List.append_assoc]
      exact hrest.tracked
    · rw [Recorded.action_bind, hafter, hcalls, ← List.append_assoc]
      exact fun cell hcell => hrest.stays cell (hx.stays cell hcell)
    · rw [Recorded.action_bind, hafter, hsame, hcalls, ← List.append_assoc]
      exact hrest.good

theorem mono {P' : Session → List Invocation → α → Prop} (hx : Follows s log x P)
    (himp : ∀ s' log' a, P s' log' a → P' s' log' a) : Follows s log x P' :=
  ⟨hx.tracked, hx.stays, fun a ha => himp _ _ a (hx.good a ha)⟩

theorem keeps {x : Action α} {good : Session → α → Prop} (ht : Tracked s log)
    (hx : Keeps s log x good) : Follows s log (liftM x) anything :=
  (lift ht hx).mono fun _ _ _ _ => trivial

theorem quiet {x : Action α} (ht : Tracked s log) (hx : x.Quiet) :
    Follows s log (liftM x) anything :=
  keeps ht (.quiet hx)

end Follows

/-- Every expression is followed, from every session. -/
def FollowsAll (eval : Recorded.Evaluator) : Prop :=
  ∀ e (s : Session) log, Tracked s log → Follows s log (eval e) anything

/-! ## Sequences -/

section Evaluator

variable {eval : Recorded.Evaluator}

theorem follows_evalLast (hev : FollowsAll eval) (ht : Tracked s log) (es : List Expr) :
    Follows s log (Action.evalLast eval es) anything := by
  induction es generalizing s log with
  | nil => exact .pure ht _
  | cons e rest ih =>
    cases rest with
    | nil => exact hev e s log ht
    | cons e' rest => exact (hev e s log ht).bind fun s' log' _ ht' _ _ => ih ht'

theorem follows_evalAll (hev : FollowsAll eval) (ht : Tracked s log) (es : List Expr) :
    Follows s log (Action.evalAll eval es) anything := by
  induction es generalizing s log with
  | nil => exact .pure ht _
  | cons e rest ih =>
    refine (hev e s log ht).bind fun s₁ log₁ _ ht₁ _ _ => ?_
    exact (ih ht₁).bind fun s₂ log₂ _ ht₂ _ _ => .pure ht₂ _

theorem follows_evalPairs (hev : FollowsAll eval) (ht : Tracked s log)
    (entries : List (Expr × Expr)) :
    Follows s log (Action.evalPairs eval entries) anything := by
  induction entries generalizing s log with
  | nil => exact .pure ht _
  | cons entry rest ih =>
    refine (hev entry.1 s log ht).bind fun s₁ log₁ _ ht₁ _ _ => ?_
    refine (hev entry.2 s₁ log₁ ht₁).bind fun s₂ log₂ _ ht₂ _ _ => ?_
    exact (ih ht₂).bind fun s₃ log₃ _ ht₃ _ _ => .pure ht₃ _

theorem follows_evalTimes (hev : FollowsAll eval) (ht : Tracked s log) (e : Expr) (count : Nat)
    (last : Value) :
    Follows s log (Action.evalTimes eval e count last) anything := by
  induction count generalizing s log last with
  | zero => exact .pure ht _
  | succ count ih => exact (hev e s log ht).bind fun s' log' v ht' _ _ => ih ht' v

end Evaluator

/-! ## Calls -/

/-- A cell that was open when a call began is not the cell of a counter that the call makes. -/
theorem IsOpen.after_call {s' : Session} {call : Invocation} {cell : CellId}
    (hc : IsOpen s log cell) (hs : call.session = s)
    (hsize : s.machine.cells.size ≤ s'.machine.cells.size) : IsOpen s' (log ++ [call]) cell := by
  have hc' : IsOpen s' log cell := ⟨Nat.lt_of_lt_of_le hc.1 hsize, hc.2⟩
  refine hc'.concat fun _ => ?_
  rw [cellOf, hs]
  exact (Nat.ne_of_lt hc.1).symm

/-- A call is in the log before the calls that it makes. -/
theorem Follows.record {f : Value} {args : List Value} {x : Recorded Value}
    (hx : ∀ call : Invocation, call.session = s → call.callee = f →
      call.result = s.result x.action → Follows s (log ++ [call]) x anything) :
    Follows s log (MonadCall.calling f args x) anything := by
  have hbody := hx ⟨s, f, args, s.result x.action, s.after x.action⟩ rfl rfl rfl
  have hcalls : log ++ (MonadCall.calling f args x).calls s
      = log ++ [⟨s, f, args, s.result x.action, s.after x.action⟩] ++ x.calls s := by
    rw [List.append_assoc]
    rfl
  constructor
  · rw [hcalls]
    exact hbody.tracked
  · rw [hcalls]
    intro cell hcell
    exact hbody.stays cell (hcell.after_call rfl (Nat.le_refl _))
  · exact fun _ _ => trivial

/-- The code that a call runs is the body of a callable. -/
theorem exists_callable {call : Invocation} {code : List Expr} (hcode : call.code? = some code) :
    ∃ id captured, call.callee = .function (some id) ∧
      call.session.machine.callables[id]? = some ⟨some (.body code), captured⟩ := by
  unfold Invocation.code? at hcode
  split at hcode
  · next id hcallee =>
    obtain ⟨⟨entry, captured⟩, hid, hentry⟩ := Option.bind_eq_some_iff.mp hcode
    split at hentry
    · next code' hbody =>
      cases hentry
      cases hbody
      exact ⟨id, captured, hcallee, hid⟩
    · cases hentry
  · cases hcode

section Calling

variable {fuel : Nat}

/-- **Code in a frame of its own** that has captured open cells. -/
theorem follows_inCall {captured : List (Option CellId)} {args : List Value} {x : Recorded α}
    (ht : Tracked s log) (hopen : ∀ cell, some cell ∈ captured → IsOpen s log cell)
    (hx : ∀ (s : Session) log, Tracked s log → Follows s log x anything) :
    Follows s log (MonadCall.inCall captured args x) anything := by
  -- The caller's frame waits below, so leaving brings back only names that were there.
  have henter := steps_enter args hopen
  have hbody := hx _ _ (ht.step henter)
  have hleave : Steps _ _ (log ++ x.calls (s.perform (.enter captured args))) :=
    steps_leave (s := (s.perform (.enter captured args)).after x.action)
  exact ⟨hbody.tracked.step hleave,
    fun cell hcell => hleave.isOpen (hbody.stays cell (henter.isOpen hcell)),
    fun _ _ => trivial⟩

/-- What is called has captured open cells. -/
theorem follows_body (hev : FollowsAll (Recorded.eval fuel)) (ht : Tracked s log) (f : Value)
    (args : List Value)
    (hopen : ∀ id cell, f = .function (some id) → s.Captures id cell → IsOpen s log cell) :
    Follows s log (Action.callBody (Recorded.eval fuel) f args) anything := by
  have hfound : Keeps s log (Action.callable? f) fun s' found =>
      ∀ callable, found = some callable →
        ∀ cell, some cell ∈ callable.captured → IsOpen s' log cell := by
    unfold Action.callable?
    split
    · next id =>
      refine .read rfl rfl ?_
      intro callable hid cell hcell
      exact hopen id cell rfl ⟨callable, hid, hcell⟩
    · exact .read rfl rfl fun callable hid => by cases hid
  refine (Follows.lift ht hfound).bind fun s' log' found ht' _ hgood => ?_
  obtain ⟨rfl, hcaptured⟩ := hgood
  cases found with
  | none => exact .pure ht' _
  | some callable =>
    simp only []
    cases callable.entry with
    | none => exact .pure ht' _
    | some entry =>
      cases entry with
      | builtin b =>
        exact .keeps ht' (keeps_perform ht' b.primitive _ _ _)
      | body code =>
        exact follows_inCall ht' (hcaptured callable rfl) fun s log ht =>
          follows_evalLast hev ht code

/-- A call without calls of its own. -/
theorem Follows.alone {x : Recorded α} {call : Invocation} (hcalls : x.calls s = [call])
    (hs : call.session = s)
    (hsize : s.machine.cells.size ≤ (s.after x.action).machine.cells.size)
    (ht : Tracked (s.after x.action) (log ++ [call])) : Follows s log x anything := by
  constructor
  · rw [hcalls]
    exact ht
  · rw [hcalls]
    exact fun cell hcell => hcell.after_call hs hsize
  · exact fun _ _ => trivial

/-- **A call of a counter.** -/
theorem follows_counter (ht : Tracked s log) {make : Invocation} (hmem : make ∈ log)
    (hmake : IsMaking make) (args : List Value) :
    Follows s log (Action.call (Recorded.eval fuel) (.function (some (counterOf make))) args)
      anything := by
  have hid := ht.callable hmem hmake
  have hcalls := Recorded.calls_call args hid (silent_counterBody fuel)
  have haction := Recorded.action_call_eval fuel
    (.function (some (counterOf make))) args
  by_cases hfuel : fuel < 3
  · -- With too little fuel nothing happens, and the call does not count.
    obtain ⟨hresult, hafter⟩ := outOfFuel_counter hfuel hid args
    rw [← haction] at hresult hafter
    refine .alone hcalls rfl (Nat.le_of_eq (by rw [hafter])) ?_
    rw [hafter]
    refine ht.record ?_ ?_
    · rintro ⟨-, hdone⟩
      rw [Invocation.isCompleted, hresult] at hdone
      cases hdone
    · intro _ _ _ _
      rw [Invocation.isCompleted, hresult]
  · obtain ⟨fuel, rfl⟩ : ∃ more, fuel = more + 3 := ⟨fuel - 3, by omega⟩
    obtain ⟨later, hcounts⟩ := ht.counts_of_mem hmem hmake
    obtain ⟨w, hw, -⟩ := hcounts.cell
    obtain ⟨v, h, ⟨hresult, hafter⟩, hview⟩ := returns_counter hid hw fuel args
    rw [← haction] at hresult hafter
    refine .alone hcalls rfl (Nat.le_of_eq (by simp [hafter])) ?_
    refine ht.counted (v := v) hmem hmake rfl rfl ?_ hw ?_ ?_ ?_ hview ?_
    · rw [Invocation.isCompleted, hresult]
    · rw [hafter]
    · rw [hafter]
    · rw [hafter]
      exact fun cell hcell => hcell
    · rw [Invocation.answer, hresult]
      exact congrArg Except.ok (hview _)

/-- **A call that makes a counter.** -/
theorem follows_making {id : CallableId} {captured : List (Option CellId)} {args : List Value}
    (ht : Tracked s log)
    (hid : s.machine.callables[id]? = some ⟨some (.body makeCounterBody), captured⟩)
    (hdone : s.result (Action.call (Action.eval fuel) (.function (some id)) args)
      ≠ .error .outOfFuel) :
    Follows s log (Action.call (Recorded.eval fuel) (.function (some id)) args) anything := by
  have hcalls := Recorded.calls_call args hid (silent_makeCounterBody fuel)
  have haction := Recorded.action_call_eval fuel (.function (some id)) args
  by_cases hfuel : fuel < 2
  · exact absurd (outOfFuel_makeCounter hfuel hid args) hdone
  · obtain ⟨fuel, rfl⟩ : ∃ more, fuel = more + 2 := ⟨fuel - 2, by omega⟩
    obtain ⟨hresult, hafter⟩ := returns_makeCounter hid fuel args
    rw [← haction] at hresult hafter
    refine .alone hcalls rfl (by simp [hafter]) ?_
    refine ht.made (v := (s.heap.copy (args[0]?.getD .nil)).1) ⟨?_, ?_⟩ rfl hresult ?_ ?_ ?_ ?_
    · simp only [Invocation.code?, hid, Option.bind_some]
    · rw [Invocation.isCompleted, hresult]
    · rw [hafter]
    · rw [hafter]
    · rw [hafter]
      exact fun cell hcell => hcell
    · exact fun h => increment_view_layout h _ _

/-- What a function has captured is open, unless the function is a counter. -/
theorem Tracked.isOpen_captured (ht : Tracked s log) {id : CallableId} {cell : CellId}
    (hno : ∀ make ∈ log, IsMaking make → counterOf make ≠ id) (hcell : s.Captures id cell) :
    IsOpen s log cell := by
  obtain ⟨hlt, hown⟩ := ht.captured id cell hcell
  refine ⟨hlt, ?_⟩
  intro make hmem hmake heq
  exact hno make hmem hmake (hown make hmem hmake heq)

/-- **Any other call.** What is no counter has no way to the cells of counters. -/
theorem follows_other (hev : FollowsAll (Recorded.eval fuel)) (ht : Tracked s log) (f : Value)
    (args : List Value)
    (hno : ∀ make ∈ log, IsMaking make → f ≠ .function (some (counterOf make)))
    (hmaking : ∀ id captured, f = .function (some id) →
      s.machine.callables[id]? = some ⟨some (.body makeCounterBody), captured⟩ →
        s.result (Action.call (Action.eval fuel) f args) = .error .outOfFuel) :
    Follows s log (Action.call (Recorded.eval fuel) f args) anything := by
  refine .record fun call hs hcallee hresult => ?_
  have hcall : ¬IsMaking call := by
    rintro ⟨hcode, hdone⟩
    obtain ⟨id, captured, hcallee', hid⟩ := exists_callable hcode
    rw [hs] at hid
    have hfuel := hmaking id captured (hcallee.symm.trans hcallee') hid
    rw [← Recorded.action_call_eval fuel f args] at hfuel
    rw [Invocation.isCompleted, hresult.trans hfuel] at hdone
    cases hdone
  have ht' : Tracked s (log ++ [call]) := by
    refine ht.record hcall ?_
    intro make hmem hmake heq
    exact absurd (hcallee.symm.trans heq) (hno make hmem hmake)
  refine follows_body hev ht' f args ?_
  rintro id cell rfl hcell
  have hopen : IsOpen s log cell := by
    refine ht.isOpen_captured ?_ hcell
    intro make hmem hmake heq
    exact hno make hmem hmake (by rw [heq])
  exact hopen.after_call hs (Nat.le_refl _)

/-- **A call** is one of a counter, makes a counter, or is neither. -/
theorem follows_call (hev : FollowsAll (Recorded.eval fuel)) (ht : Tracked s log) (f : Value)
    (args : List Value) :
    Follows s log (Action.call (Recorded.eval fuel) f args) anything := by
  by_cases hcounter : ∃ make ∈ log, IsMaking make ∧ f = .function (some (counterOf make))
  · obtain ⟨make, hmem, hmake, rfl⟩ := hcounter
    exact follows_counter ht hmem hmake args
  by_cases hmaking : ∃ id captured, f = .function (some id) ∧
      s.machine.callables[id]? = some ⟨some (.body makeCounterBody), captured⟩ ∧
      s.result (Action.call (Action.eval fuel) f args) ≠ .error .outOfFuel
  · obtain ⟨id, captured, rfl, hid, hdone⟩ := hmaking
    exact follows_making ht hid hdone
  · apply follows_other hev ht
    · intro make hmem hmake heq
      exact hcounter ⟨make, hmem, hmake, heq⟩
    · intro id captured hf hid
      by_contra hdone
      exact hmaking ⟨id, captured, hf, hid, hdone⟩

theorem follows_callOnItems (hev : FollowsAll (Recorded.eval fuel)) (ht : Tracked s log)
    (f : Value) (walk : Heap.Walk) (remaining index : Nat) :
    Follows s log (Action.callOnItems (Recorded.eval fuel) f walk remaining index)
      anything := by
  induction remaining generalizing s log index with
  | zero => exact .pure ht _
  | succ remaining ih =>
    refine (Follows.quiet ht fun _ => rfl).bind fun s₁ log₁ m ht₁ _ _ => ?_
    refine (follows_call hev ht₁ f _).bind fun s₂ log₂ result ht₂ _ _ => ?_
    refine (Follows.quiet ht₂ fun _ => rfl).bind fun s₃ log₃ d ht₃ _ _ => ?_
    split
    · exact ih ht₃ (index + 1)
    · exact .pure ht₃ _

theorem follows_callOnPairs (hev : FollowsAll (Recorded.eval fuel)) (ht : Tracked s log)
    (f : Value) (id : NodeId) (index : Nat) (keys : List Value) :
    Follows s log (Action.callOnPairs (Recorded.eval fuel) f id index keys) anything := by
  induction keys generalizing s log index with
  | nil => exact .pure ht _
  | cons key rest ih =>
    refine (Follows.quiet ht fun _ => rfl).bind fun s₁ log₁ m ht₁ _ _ => ?_
    cases m.heap.object? id with
    | none => exact .pure ht₁ _
    | some o =>
      refine (Follows.quiet ht₁ (.plain (.ofFault _))).bind fun s₂ log₂ value ht₂ _ _ => ?_
      refine (follows_call hev ht₂ f _).bind fun s₃ log₃ result ht₃ _ _ => ?_
      refine (Follows.quiet ht₃ fun _ => rfl).bind fun s₄ log₄ d ht₄ _ _ => ?_
      split
      · exact ih ht₄ (index + 1)
      · exact .pure ht₄ _

theorem follows_runCalling (hev : FollowsAll (Recorded.eval fuel)) (ht : Tracked s log)
    (calling : Calling) (args : List Value) :
    Follows s log (Action.runCalling (Recorded.eval fuel) calling args) anything := by
  cases calling with
  | function => exact follows_call hev ht _ _
  | eachItem =>
    simp only [Action.runCalling]
    split
    · refine (Follows.quiet ht fun _ => rfl).bind fun s₁ log₁ m ht₁ _ _ => ?_
      exact (follows_callOnItems hev ht₁ _ _ _ 0).bind fun s₂ log₂ _ ht₂ _ _ => .pure ht₂ _
    · exact .pure ht _
  | eachPair =>
    simp only [Action.runCalling]
    split
    · next id _ =>
      refine (Follows.quiet ht fun _ => rfl).bind fun s₁ log₁ m ht₁ _ _ => ?_
      cases m.heap.object? id with
      | none => exact .quiet ht₁ (.plain (.throw _))
      | some o =>
        exact (follows_callOnPairs hev ht₁ _ id 0 _).bind fun s₂ log₂ _ ht₂ _ _ => .pure ht₂ _
    · exact .pure ht _

/-! ## Expressions -/

/-- A new cell with a name. -/
theorem follows_bind (ht : Tracked s log) (name : Bytes) (v : Value) :
    Follows s log (do
      let cell ← Action.newCell v
      Action.modifyFrame fun f => { f with locals := named name cell f.locals }
      Action.readCell (some cell)) anything := by
  refine (Follows.lift ht (keeps_newCell ht v)).bind fun s₁ log₁ cell ht₁ _ hgood => ?_
  obtain ⟨rfl, hopen⟩ := hgood
  refine (Follows.keeps ht₁ (keeps_bindLocal name hopen)).bind fun s₂ log₂ _ ht₂ _ _ => ?_
  exact .quiet ht₂ (.plain (.readCell _))

/-- Writing to the cell of a reference, which stays open while the value is evaluated. -/
theorem follows_write (hev : FollowsAll (Recorded.eval fuel)) (ht : Tracked s log) (ref : CellRef)
    (e : Expr) {rest : Option CellId → Recorded Value}
    (hrest : ∀ cell (s : Session) log, Tracked s log → Follows s log (rest cell) anything) :
    Follows s log (do
      let cell ← Action.resolve ref
      Action.writeCell cell (← Recorded.eval fuel e)
      rest cell) anything := by
  refine (Follows.lift ht (keeps_resolve ht ref)).bind fun s₁ log₁ cell ht₁ _ hgood => ?_
  obtain ⟨rfl, hopen⟩ := hgood
  refine (hev e s₁ _ ht₁).bind fun s₂ log₂ v ht₂ hstays _ => ?_
  -- The value may have made counters after the cell was found, but over other cells.
  have hopen' : OpenCell log₂ s₂ cell := fun id hid => hstays id (hopen id hid)
  refine (Follows.keeps ht₂ (keeps_writeCell hopen' v)).bind fun s₃ log₃ _ ht₃ _ _ => ?_
  exact hrest cell s₃ log₃ ht₃

/-- **One expression**, given that its parts are followed. -/
theorem follows_step (hev : FollowsAll (Recorded.eval fuel)) (ht : Tracked s log) (e : Expr) :
    Follows s log (Action.step (Recorded.eval fuel) e) anything := by
  cases e with
  | nil => exact .quiet ht (.pure _)
  | boolean b => exact .quiet ht (.pure _)
  | number x => exact .quiet ht (.pure _)
  | string text => exact .quiet ht (.pure _)
  | list items =>
    exact (follows_evalAll hev ht items).bind fun s' log' _ ht' _ _ =>
      .quiet ht' (.plain (.onHeap _))
  | object entries =>
    exact (follows_evalPairs hev ht entries).bind fun s' log' _ ht' _ _ =>
      .quiet ht' (.plain (.tryHeap _))
  | function body captured =>
    exact .keeps ht ((keeps_resolveAll ht captured).bind fun s' cells _ hopen =>
      keeps_newFunction _ hopen)
  | nest count wrapping e =>
    exact (hev e s log ht).bind fun s' log' v ht' _ _ =>
      .quiet ht' (.plain (.wrapTimes wrapping count v))
  | bind name e => exact (hev e s log ht).bind fun s' log' v ht' _ _ => follows_bind ht' name v
  | get ref =>
    exact .keeps ht ((keeps_resolve ht ref).bind fun s' cell _ _ =>
      .quiet (.plain (.readCell cell)))
  | assign ref e =>
    exact follows_write hev ht ref e fun cell s log ht => .quiet ht (.plain (.readCell cell))
  | copyTo ref e => exact follows_write hev ht ref e fun cell s log ht => .pure ht _
  | argument index => exact .quiet ht fun _ => rfl
  | hold name e =>
    refine (hev e s log ht).bind fun s₁ log₁ v ht₁ _ _ => ?_
    exact (Follows.quiet ht₁ fun _ => rfl).bind fun s₂ log₂ _ ht₂ _ _ => .pure ht₂ _
  | held name => exact .quiet ht fun _ => rfl
  | ifThenElse condition yes no =>
    refine (hev condition s log ht).bind fun s₁ log₁ c ht₁ _ _ => ?_
    refine (Follows.quiet ht₁ fun _ => rfl).bind fun s₂ log₂ d ht₂ _ _ => ?_
    split
    · exact hev yes s₂ log₂ ht₂
    · exact hev no s₂ log₂ ht₂
  | seq es => exact follows_evalLast hev ht es
  | times count e => exact follows_evalTimes hev ht e count _
  | iterate name e =>
    refine (hev e s log ht).bind fun s₁ log₁ v ht₁ _ _ => ?_
    refine (Follows.quiet ht₁ fun _ => rfl).bind fun s₂ log₂ it ht₂ _ _ => ?_
    exact (Follows.quiet ht₂ fun _ => rfl).bind fun s₃ log₃ _ ht₃ _ _ => .pure ht₃ _
  | hasNext name => exact .quiet ht (.hasNext name)
  | next name => exact .quiet ht (.next name)
  | apply primitive args =>
    exact (follows_evalAll hev ht args).bind fun s' log' _ ht' _ _ =>
      .keeps ht' (keeps_perform ht' primitive _ _ _)
  | call calling args =>
    exact (follows_evalAll hev ht args).bind fun s' log' values ht' _ _ =>
      follows_runCalling hev ht' calling values

end Calling

/-- **Evaluation keeps track of the counters.** -/
theorem follows_eval (fuel : Nat) (ht : Tracked s log) (e : Expr) :
    Follows s log (Recorded.eval fuel e) anything := by
  induction fuel generalizing s log e with
  | zero => exact .quiet ht (.plain (.throw _))
  | succ fuel ih => exact follows_step (fun e s log ht => ih ht e) ht e

end ValueRuntime.Counter
