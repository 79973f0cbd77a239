import ValueRuntime.Proofs.Counter.Tracking
import ValueRuntime.Proofs.Machine.Evaluation
import ValueRuntime.Proofs.Machine.Quiet

/-! # Actions between the calls of counters

    An action that calls nothing *keeps* the counters: all that it does to a session is a
    `Steps`. A cell that code refers to, by a name or by a capture, is open, so what is written
    to it and which functions capture it does not matter to counters.

    * **`steps_enter`** and **`steps_leave`**: the frame of a call refers to what was captured.
    * **`keeps_resolve`**: a reference stands for an open cell.
    * **`keeps_writeCell`** and **`keeps_newFunction`**: what may be done with open cells.
    * **`keeps_perform`**: the primitives.
-/

namespace ValueRuntime.Counter

variable {s s' s'' : Session} {log : List Invocation}

/-! ## Steps -/

theorem Steps.trans (h₁ : Steps s s' log) (h₂ : Steps s' s'' log) : Steps s s'' log where
  size := Nat.le_trans h₁.size h₂.size
  cells := by
    intro make hmem hmake
    rw [h₂.cells make hmem hmake, h₁.cells make hmem hmake]
  callables := fun id callable hid => h₂.callables id callable (h₁.callables id callable hid)
  names := by
    intro cell hcell
    rcases h₂.names cell hcell with hmid | hopen
    · rcases h₁.names cell hmid with hold | hopen
      · exact .inl hold
      · exact .inr (h₂.isOpen hopen)
    · exact .inr hopen
  captures := by
    intro id cell hcell
    rcases h₂.captures id cell hcell with hmid | hopen
    · rcases h₁.captures id cell hmid with hold | hopen
      · exact .inl hold
      · exact .inr (h₂.isOpen hopen)
    · exact .inr hopen

/-- Nothing that code refers to changes. -/
theorem Steps.of_scope (hscope : s'.machine.scope = s.machine.scope)
    (hcallers : s'.callers = s.callers) : Steps s s' log := by
  simp only [Machine.scope, Scope.mk.injEq] at hscope
  obtain ⟨hcells, hcallables, hglobals, hcaptured, hlocals⟩ := hscope
  refine ⟨Nat.le_of_eq (by rw [hcells]), fun _ _ _ => by rw [hcells],
    fun id callable hid => by rw [hcallables]; exact hid, ?_, ?_⟩
  · intro cell hcell
    simp only [Session.Names, Frame.Names, List.mem_cons, exists_eq_or_imp, hglobals, hcaptured,
      hlocals, hcallers] at hcell ⊢
    exact .inl hcell
  · rintro id cell ⟨callable, hid, hmem⟩
    rw [hcallables] at hid
    exact .inl ⟨callable, hid, hmem⟩

/-- The only change is to cells that are open or new. -/
theorem Steps.of_cells (hsize : s.machine.cells.size ≤ s'.machine.cells.size)
    (hcells : ∀ make ∈ log, IsMaking make →
      s'.machine.cells[cellOf make]? = s.machine.cells[cellOf make]?)
    (hcallables : s'.machine.callables = s.machine.callables)
    (hnames : ∀ cell, s'.Names cell → s.Names cell ∨ IsOpen s' log cell) : Steps s s' log := by
  refine ⟨hsize, hcells, fun id callable hid => by rw [hcallables]; exact hid, hnames, ?_⟩
  rintro id cell ⟨callable, hid, hmem⟩
  rw [hcallables] at hid
  exact .inl ⟨callable, hid, hmem⟩

/-- A new cell is open. -/
theorem Tracked.isOpen_push (ht : Tracked s log)
    (hsize : s'.machine.cells.size = s.machine.cells.size + 1) :
    IsOpen s' log s.machine.cells.size :=
  ⟨hsize ▸ Nat.lt_succ_self _, fun _ hmem hmake => Nat.ne_of_lt (ht.cell_lt hmem hmake)⟩

theorem Tracked.getElem?_push (ht : Tracked s log) {make : Invocation} (hmem : make ∈ log)
    (hmake : IsMaking make) (v : Value) :
    (s.machine.cells.push v)[cellOf make]? = s.machine.cells[cellOf make]? := by
  rw [Array.getElem?_push, if_neg (Nat.ne_of_lt (ht.cell_lt hmem hmake))]

/-! ## Entering and leaving calls -/

/-- Code that captured open cells may run in a frame of its own. -/
theorem steps_enter {captured : List (Option CellId)} (args : List Value)
    (hopen : ∀ cell, some cell ∈ captured → IsOpen s log cell) :
    Steps s (s.perform (.enter captured args)) log := by
  refine .of_cells (Nat.le_refl _) (fun _ _ _ => rfl) rfl ?_
  intro cell hcell
  rcases hcell with hglobal | ⟨frame, hframe, hnames⟩
  · exact .inl (.inl hglobal)
  · rcases List.mem_cons.mp hframe with rfl | hcaller
    · rcases hnames with hcaptured | ⟨name, hlocal⟩
      · exact .inr (hopen cell hcaptured)
      · cases hlocal
    · exact .inl (.inr ⟨frame, hcaller, hnames⟩)

theorem steps_leave : Steps s (s.perform .leave) log := by
  obtain ⟨m, callers⟩ := s
  cases callers with
  | nil => exact .of_scope rfl rfl
  | cons frame rest =>
    refine .of_cells (Nat.le_refl _) (fun _ _ _ => rfl) rfl ?_
    intro cell hcell
    rcases hcell with hglobal | ⟨frame', hframe, hnames⟩
    · exact .inl (.inl hglobal)
    · exact .inl (.inr ⟨frame', List.mem_cons_of_mem _ hframe, hnames⟩)

/-! ## Actions -/

/-- **An action that keeps the counters**, with a fact on its result. -/
structure Keeps {α : Type} (s : Session) (log : List Invocation) (x : Action α)
    (good : Session → α → Prop) : Prop where
  steps : Steps s (s.after x) log
  good : ∀ a, s.result x = .ok a → good (s.after x) a

namespace Keeps

variable {α β : Type} {x : Action α} {f : α → Action β} {P : Session → α → Prop}
  {Q : Session → β → Prop}

/-- An action that only reads. -/
theorem read {a : α} (hafter : s.after x = s) (hresult : s.result x = .ok a) (ha : P s a) :
    Keeps s log x P where
  steps := .of_scope (by rw [hafter]) rfl
  good := by
    intro b hb
    rw [hresult] at hb
    cases hb
    rw [hafter]
    exact ha

theorem quiet (hx : x.Quiet) : Keeps s log x fun _ _ => True where
  steps := .of_scope (hx s) rfl
  good := fun _ _ => trivial

theorem bind (hx : Keeps s log x P)
    (hf : ∀ (s' : Session) (a : α), Steps s s' log → P s' a → Keeps s' log (f a) Q) :
    Keeps s log (x >>= f) Q := by
  cases hresult : s.result x with
  | error stop =>
    obtain ⟨hsame, hafter⟩ := Session.bind_of_error hresult f
    refine ⟨by rw [hafter]; exact hx.steps, ?_⟩
    intro b hb
    rw [hsame] at hb
    cases hb
  | ok a =>
    obtain ⟨hsame, hafter⟩ := Session.bind_of_ok hresult f
    have hrest := hf _ a hx.steps (hx.good a hresult)
    refine ⟨by rw [hafter]; exact hx.steps.trans hrest.steps, ?_⟩
    intro b hb
    rw [hsame] at hb
    rw [hafter]
    exact hrest.good b hb

end Keeps

/-- A reference resolved to a cell that is open. -/
def OpenCell (log : List Invocation) (s : Session) (cell? : Option CellId) : Prop :=
  ∀ cell, cell? = some cell → IsOpen s log cell

theorem keeps_newCell (ht : Tracked s log) (v : Value) :
    Keeps s log (Action.newCell v) fun s' cell => IsOpen s' log cell := by
  have hcells : (s.after (Action.newCell v)).machine.cells
      = s.machine.cells.push (s.heap.copy v).1 := rfl
  constructor
  · refine .of_cells (by simp [hcells]) ?_ rfl (fun cell hcell => .inl hcell)
    intro make hmem hmake
    rw [hcells]
    exact ht.getElem?_push hmem hmake _
  · intro cell hcell
    cases hcell
    exact ht.isOpen_push (by simp [hcells])

theorem keeps_globalCell (ht : Tracked s log) (name : Bytes) :
    Keeps s log (Action.globalCell name) fun s' cell => IsOpen s' log cell := by
  rcases s.globalCell_cases name with ⟨cell, hfind, hresult, hafter⟩ | ⟨-, hresult, hafter⟩
  · -- The global is there, so its cell has a name.
    exact .read hafter hresult (ht.named cell (.inl ⟨name, hfind⟩))
  · -- The global is made over a new cell, which is the cell of no counter.
    have hcells : (s.withGlobal name).machine.cells = s.machine.cells.push .nil := rfl
    have hopen : IsOpen (s.withGlobal name) log s.machine.cells.size :=
      ht.isOpen_push (by simp [hcells])
    constructor
    · rw [hafter]
      refine .of_cells (by simp [hcells]) ?_ rfl ?_
      · intro make hmem hmake
        rw [hcells]
        exact ht.getElem?_push hmem hmake _
      · rintro cell (⟨other, hother⟩ | hframe)
        · by_cases hname : other = name
          · have hfind : (s.withGlobal name).machine.globals.find? name
                = some s.machine.cells.size := NameTable.find?_insert _ _ _
            rw [hname, hfind] at hother
            cases hother
            exact .inr hopen
          · have hfind : (s.withGlobal name).machine.globals.find? other
                = s.machine.globals.find? other := NameTable.find?_insert_of_ne _ hname _
            rw [hfind] at hother
            exact .inl (.inl ⟨other, hother⟩)
        · exact .inl (.inr hframe)
    · intro cell hcell
      rw [hresult] at hcell
      cases hcell
      rw [hafter]
      exact hopen

/-- Writing to an open cell. -/
theorem keeps_writeCell {cell? : Option CellId} (hopen : OpenCell log s cell?) (v : Value) :
    Keeps s log (Action.writeCell cell? v) fun _ _ => True := by
  cases cell? with
  | none => exact .read rfl rfl trivial
  | some cell =>
    have hcells : (s.after (Action.writeCell (some cell) v)).machine.cells
        = s.machine.cells.setIfInBounds cell (s.heap.copy v).1 := rfl
    refine ⟨.of_cells (by simp [hcells]) ?_ rfl (fun cell hcell => .inl hcell),
      fun _ _ => trivial⟩
    intro make hmem hmake
    rw [hcells, Array.getElem?_setIfInBounds_ne ((hopen cell rfl).2 make hmem hmake).symm]

theorem mem_of_atIndex? {α : Type} {entries : List α} {index : Int} {a : α}
    (ha : Action.atIndex? entries index = some a) : a ∈ entries := by
  unfold Action.atIndex? at ha
  split at ha
  · exact List.mem_of_getElem? ha
  · cases ha

/-- **Whatever code refers to is open.** -/
theorem keeps_resolve (ht : Tracked s log) (ref : CellRef) :
    Keeps s log (Action.resolve ref) (OpenCell log) := by
  have hframe : ∀ cell, s.machine.frame.Names cell → IsOpen s log cell :=
    fun cell hcell => ht.named cell (.inr ⟨_, List.mem_cons_self, hcell⟩)
  cases ref with
  | ofLocal name =>
    refine .read rfl rfl ?_
    intro cell hcell
    exact hframe cell (.inr ⟨name, mem_of_lookup hcell⟩)
  | ofCapture index =>
    refine .read rfl rfl ?_
    intro cell hcell
    exact hframe cell (.inl (mem_of_atIndex? (Option.join_eq_some_iff.mp hcell)))
  | ofGlobal name =>
    refine (keeps_globalCell ht name).bind fun s' cell _ hopen => .read rfl rfl ?_
    rintro cell' hcell
    cases hcell
    exact hopen
  | absent => exact .read rfl rfl fun cell hcell => by cases hcell

theorem keeps_resolveAll (ht : Tracked s log) (refs : List CellRef) :
    Keeps s log (Action.resolveAll refs) fun s' cells =>
      ∀ cell, some cell ∈ cells → IsOpen s' log cell := by
  induction refs generalizing s with
  | nil => exact .read rfl rfl fun cell hcell => by cases hcell
  | cons ref rest ih =>
    refine (keeps_resolve ht ref).bind fun s₁ first hstep₁ hfirst => ?_
    refine (ih (ht.step hstep₁)).bind fun s₂ more hstep₂ hmore => .read rfl rfl ?_
    intro cell hcell
    rcases List.mem_cons.mp hcell with hhead | htail
    · exact hstep₂.isOpen (hfirst cell hhead.symm)
    · exact hmore cell htail

/-- A function over open cells. -/
theorem keeps_newFunction (entry : Option Entry) {captured : List (Option CellId)}
    (hopen : ∀ cell, some cell ∈ captured → IsOpen s log cell) :
    Keeps s log (Action.newFunction entry captured) fun _ _ => True := by
  refine ⟨⟨Nat.le_refl _, fun _ _ _ => rfl, ?_, fun cell hcell => .inl hcell, ?_⟩,
    fun _ _ => trivial⟩
  · intro id callable hid
    show (s.machine.callables.push ⟨entry, captured⟩)[id]? = _
    have hlt := (Array.getElem?_eq_some_iff.mp hid).choose
    rw [Array.getElem?_push, if_neg (Nat.ne_of_lt hlt)]
    exact hid
  · rintro id cell ⟨callable, hid, hmem⟩
    rcases getElem?_push_cases hid with hold | ⟨-, rfl⟩
    · exact .inl ⟨callable, hold, hmem⟩
    · exact .inr (hopen cell hmem)

/-- A name for an open cell. -/
theorem keeps_bindLocal (name : Bytes) {cell : CellId} (hopen : IsOpen s log cell) :
    Keeps s log (Action.modifyFrame fun f => { f with locals := named name cell f.locals })
      fun _ _ => True := by
  refine ⟨.of_cells (Nat.le_refl _) (fun _ _ _ => rfl) rfl ?_, fun _ _ => trivial⟩
  rintro other (hglobal | ⟨frame, hframe, hnames⟩)
  · exact .inl (.inl hglobal)
  · rcases List.mem_cons.mp hframe with rfl | hcaller
    · rcases hnames with hcaptured | ⟨name', hlocal⟩
      · exact .inl (.inr ⟨_, List.mem_cons_self, .inl hcaptured⟩)
      · rcases Session.mem_named hlocal with rfl | hold
        · exact .inr hopen
        · exact .inl (.inr ⟨_, List.mem_cons_self, .inr ⟨name', hold⟩⟩)
    · exact .inl (.inr ⟨frame, List.mem_cons_of_mem _ hcaller, hnames⟩)

/-- **Primitives keep the counters.** -/
theorem keeps_perform (ht : Tracked s log) (primitive : Primitive) (a b c : Value) :
    Keeps s log (Action.perform primitive a b c) fun _ _ => True := by
  by_cases hp : primitive = .setGlobal
  · subst hp
    refine (keeps_globalCell ht a.stringOf).bind fun s₁ cell hstep hopen => ?_
    refine (keeps_writeCell ?_ b).bind fun s₂ _ _ _ => .read rfl rfl trivial
    rintro other hother
    cases hother
    exact hopen
  · exact .quiet (.plain (.perform hp a b c))

end ValueRuntime.Counter
