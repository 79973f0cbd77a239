import ValueRuntime.Proofs.Counter.Bodies
import ValueRuntime.Proofs.NameTable

/-! # Keeping track of counters

    A session is looked at together with the log of the calls that were made so far.

    * **`Tracked`** is the invariant: the cell of every counter that was made is captured by this
      counter alone and has no name, and it has been counted up once by each call of the counter.
    * **`Tracked.step`** covers all that happens between such calls: code reads, writes and
      captures *open* cells only, which are the cells of no counter.
    * **`Tracked.made`** and **`Tracked.counted`** are the calls that make and use a counter. They
      extend the log, as does **`Tracked.record`** for all other calls.
-/

namespace ValueRuntime

/-- A frame refers to a cell. -/
def Frame.Names (frame : Frame) (cell : CellId) : Prop :=
  some cell ∈ frame.captured ∨ ∃ name, (name, cell) ∈ frame.locals

/-- A global or a frame refers to a cell. -/
def Session.Names (s : Session) (cell : CellId) : Prop :=
  (∃ name, s.machine.globals.find? name = some cell) ∨
    ∃ frame ∈ s.machine.frame :: s.callers, frame.Names cell

/-- A callable has captured a cell. -/
def Session.Captures (s : Session) (id : CallableId) (cell : CellId) : Prop :=
  ∃ callable, s.machine.callables[id]? = some callable ∧ some cell ∈ callable.captured

namespace Counter

/-! ## The calls of a counter -/

/-- The completed calls of a function. -/
def callsOf (id : CallableId) (log : List Invocation) : List Invocation :=
  log.filter fun call => decide (call.callee = .function (some id)) && call.isCompleted

/-- A call that makes a counter. -/
def IsMaking (call : Invocation) : Prop :=
  call.code? = some makeCounterBody ∧ call.isCompleted = true

/-- The counter that a call makes. -/
def counterOf (make : Invocation) : CallableId := make.session.machine.callables.size

/-- The cell of the counter that a call makes. -/
def cellOf (make : Invocation) : CellId := make.session.machine.cells.size

/-- The initial value that a call makes a counter from. -/
def initialOf (make : Invocation) : Datum :=
  make.session.heap.view (make.args[0]?.getD .nil)

theorem callsOf_concat_of_not {id : CallableId} {call : Invocation}
    (hcall : call.callee = .function (some id) → call.isCompleted = false)
    (log : List Invocation) : callsOf id (log ++ [call]) = callsOf id log := by
  have hnot : ¬(call.callee = .function (some id) ∧ call.isCompleted = true) := by
    rintro ⟨hcallee, hdone⟩
    rw [hcall hcallee] at hdone
    cases hdone
  simpa [callsOf, List.filter_append] using hnot

theorem callsOf_concat {id : CallableId} {call : Invocation}
    (hcallee : call.callee = .function (some id)) (hdone : call.isCompleted = true)
    (log : List Invocation) : callsOf id (log ++ [call]) = callsOf id log ++ [call] := by
  simp [callsOf, List.filter_append, hcallee, hdone]

/-- A call in a log with one more call is the last one, or it was there before. -/
theorem split_concat {log before later : List Invocation} {call make : Invocation}
    (h : log ++ [call] = before ++ make :: later) :
    (make = call ∧ later = []) ∨
      ∃ later', later = later' ++ [call] ∧ log = before ++ make :: later' := by
  rcases List.eq_nil_or_concat later with rfl | ⟨later', last, rfl⟩
  · obtain ⟨-, hlast⟩ := List.append_inj' h rfl
    cases hlast
    exact .inl ⟨rfl, rfl⟩
  · have h' : log ++ [call] = (before ++ make :: later') ++ [last] := by
      rw [h]
      simp
    obtain ⟨hlog, hlast⟩ := List.append_inj' h' rfl
    cases hlast
    exact .inr ⟨later', by simp, hlog⟩

/-! ## The invariant -/

/-- A cell of no counter that was made. -/
def IsOpen (s : Session) (log : List Invocation) (cell : CellId) : Prop :=
  cell < s.machine.cells.size ∧ ∀ make ∈ log, IsMaking make → cellOf make ≠ cell

/-- **A counter that counts:** its cell has been counted up by each of its calls, and each of
    them has returned what it should. No later call has made the same counter. -/
structure Counts (s : Session) (make : Invocation) (later : List Invocation) : Prop where
  result : make.result = .ok (.function (some (counterOf make)))
  callable : s.machine.callables[counterOf make]?
    = some ⟨some (.body counterBody), [some (cellOf make)]⟩
  /-- The cell may hold a container, which can change. What one more call returns cannot. -/
  cell : ∃ w, s.machine.cells[cellOf make]? = some w ∧ ∀ h : Heap, increment (h.view w)
    = Nat.repeat increment ((callsOf (counterOf make) later).length + 1) (initialOf make)
  answers : ∀ (n : Nat) (call : Invocation), (callsOf (counterOf make) later)[n]? = some call →
    call.answer = .ok (Nat.repeat increment (n + 1) (initialOf make))
  apart : ∀ other ∈ later, IsMaking other → counterOf other ≠ counterOf make

/-- **The counters of a session, after the calls of a log.** -/
structure Tracked (s : Session) (log : List Invocation) : Prop where
  named : ∀ cell, s.Names cell → IsOpen s log cell
  captured : ∀ id (cell : Nat), s.Captures id cell → cell < s.machine.cells.size ∧
    ∀ make ∈ log, IsMaking make → cellOf make = cell → counterOf make = id
  counts : ∀ before make later, log = before ++ make :: later → IsMaking make →
    Counts s make later

variable {s s' : Session} {log : List Invocation} {call make : Invocation}

theorem Tracked.counts_of_mem (ht : Tracked s log) (hmem : make ∈ log) (hmake : IsMaking make) :
    ∃ later, Counts s make later := by
  obtain ⟨before, later, hlog⟩ := List.append_of_mem hmem
  exact ⟨later, ht.counts before make later hlog hmake⟩

theorem Tracked.callable (ht : Tracked s log) (hmem : make ∈ log) (hmake : IsMaking make) :
    s.machine.callables[counterOf make]?
      = some ⟨some (.body counterBody), [some (cellOf make)]⟩ :=
  (ht.counts_of_mem hmem hmake).choose_spec.callable

theorem Tracked.cell_lt (ht : Tracked s log) (hmem : make ∈ log) (hmake : IsMaking make) :
    cellOf make < s.machine.cells.size := by
  obtain ⟨later, hcounts⟩ := ht.counts_of_mem hmem hmake
  obtain ⟨w, hw, -⟩ := hcounts.cell
  exact (Array.getElem?_eq_some_iff.mp hw).choose

theorem Tracked.captures (ht : Tracked s log) (hmem : make ∈ log) (hmake : IsMaking make) :
    s.Captures (counterOf make) (cellOf make) :=
  ⟨_, ht.callable hmem hmake, List.mem_singleton.mpr rfl⟩

/-- A call of a counter runs the body of counters. -/
theorem Tracked.code? (ht : Tracked s log) (hmem : make ∈ log) (hmake : IsMaking make)
    (hs : call.session = s) (hcallee : call.callee = .function (some (counterOf make))) :
    call.code? = some counterBody := by
  unfold Invocation.code?
  rw [hcallee, hs]
  simp only [ht.callable hmem hmake, Option.bind_some]

theorem counterBody_ne_makeCounterBody : counterBody ≠ makeCounterBody := by
  intro h
  cases h

/-! ## Between the calls -/

/-- **What is done between the calls:** callables stay as they are, and so do the cells of
    counters. New names and captures are of open cells. -/
structure Steps (s s' : Session) (log : List Invocation) : Prop where
  size : s.machine.cells.size ≤ s'.machine.cells.size
  cells : ∀ make ∈ log, IsMaking make →
    s'.machine.cells[cellOf make]? = s.machine.cells[cellOf make]?
  callables : ∀ (id : CallableId) callable, s.machine.callables[id]? = some callable →
    s'.machine.callables[id]? = some callable
  names : ∀ cell, s'.Names cell → s.Names cell ∨ IsOpen s' log cell
  captures : ∀ id cell, s'.Captures id cell → s.Captures id cell ∨ IsOpen s' log cell

theorem Steps.isOpen (hstep : Steps s s' log) {cell : CellId} (hc : IsOpen s log cell) :
    IsOpen s' log cell :=
  ⟨Nat.lt_of_lt_of_le hc.1 hstep.size, hc.2⟩

theorem Tracked.step (ht : Tracked s log) (hstep : Steps s s' log) : Tracked s' log where
  named := by
    intro cell hcell
    rcases hstep.names cell hcell with hold | hopen
    · exact hstep.isOpen (ht.named cell hold)
    · exact hopen
  captured := by
    intro id cell hcell
    rcases hstep.captures id cell hcell with hold | hopen
    · obtain ⟨hlt, hown⟩ := ht.captured id cell hold
      exact ⟨Nat.lt_of_lt_of_le hlt hstep.size, hown⟩
    · exact ⟨hopen.1, fun make hmem hmake heq => absurd heq (hopen.2 make hmem hmake)⟩
  counts := by
    intro before make later hlog hmake
    have hcounts := ht.counts before make later hlog hmake
    have hmem : make ∈ log := by simp [hlog]
    refine { hcounts with callable := hstep.callables _ _ hcounts.callable, cell := ?_ }
    rw [hstep.cells make hmem hmake]
    exact hcounts.cell

/-! ## Calls -/

theorem IsOpen.concat {cell : CellId} (hc : IsOpen s log cell)
    (hcall : IsMaking call → cellOf call ≠ cell) : IsOpen s (log ++ [call]) cell := by
  refine ⟨hc.1, ?_⟩
  intro make hmem hmake
  rcases List.mem_append.mp hmem with hold | hnew
  · exact hc.2 make hold hmake
  · rw [List.mem_singleton.mp hnew] at hmake ⊢
    exact hcall hmake

/-- **One more call.** It makes a counter over a new cell or it makes none, and each older
    counter goes on to count. -/
theorem Tracked.concat (ht : Tracked s log) (hsize : s.machine.cells.size ≤ s'.machine.cells.size)
    (hfresh : IsMaking call → s.machine.cells.size ≤ cellOf call)
    (hnames : ∀ cell, s'.Names cell → s.Names cell)
    (hcaptures : ∀ id cell, s'.Captures id cell → s.Captures id cell ∨
      (s.machine.cells.size ≤ cell ∧ cell < s'.machine.cells.size ∧ counterOf call = id))
    (hnew : IsMaking call → Counts s' call [])
    (hold : ∀ before make later, log = before ++ make :: later → IsMaking make →
      Counts s' make (later ++ [call])) : Tracked s' (log ++ [call]) where
  named := by
    intro cell hcell
    have hopen := ht.named cell (hnames cell hcell)
    have hlater : IsOpen s' log cell := ⟨Nat.lt_of_lt_of_le hopen.1 hsize, hopen.2⟩
    refine hlater.concat fun hmake => ?_
    exact (Nat.ne_of_lt (Nat.lt_of_lt_of_le hopen.1 (hfresh hmake))).symm
  captured := by
    intro id cell hcell
    rcases hcaptures id cell hcell with hcaptured | ⟨hge, hlt, hid⟩
    · obtain ⟨hlt, hown⟩ := ht.captured id cell hcaptured
      refine ⟨Nat.lt_of_lt_of_le hlt hsize, ?_⟩
      intro make hmem hmake heq
      rcases List.mem_append.mp hmem with hmem' | hlast
      · exact hown make hmem' hmake heq
      · -- The cell is older than the call.
        cases List.mem_singleton.mp hlast
        have hge := hfresh hmake
        rw [heq] at hge
        exact absurd hlt (Nat.not_lt.mpr hge)
    · refine ⟨hlt, ?_⟩
      intro make hmem hmake heq
      rcases List.mem_append.mp hmem with hmem' | hlast
      · have hlt' := ht.cell_lt hmem' hmake
        rw [heq] at hlt'
        exact absurd hlt' (Nat.not_lt.mpr hge)
      · cases List.mem_singleton.mp hlast
        exact hid
  counts := by
    intro before make later hlog hmake
    rcases split_concat hlog with ⟨rfl, rfl⟩ | ⟨later', rfl, hlog'⟩
    · exact hnew hmake
    · exact hold before make later' hlog' hmake

theorem Counts.apart_concat {later : List Invocation} (hcounts : Counts s make later)
    (hcall : IsMaking call → counterOf call ≠ counterOf make) :
    ∀ other ∈ later ++ [call], IsMaking other → counterOf other ≠ counterOf make := by
  intro other hmem hother
  rcases List.mem_append.mp hmem with hold | hlast
  · exact hcounts.apart other hold hother
  · cases List.mem_singleton.mp hlast
    exact hcall hother

/-- A counter is not affected by a call that is none of its own. -/
theorem Counts.concat_of_not {later : List Invocation} (hcounts : Counts s make later)
    (hmaking : IsMaking call → counterOf call ≠ counterOf make)
    (hcall : call.callee = .function (some (counterOf make)) → call.isCompleted = false)
    (hcallable : s'.machine.callables[counterOf make]? = s.machine.callables[counterOf make]?)
    (hcell : s'.machine.cells[cellOf make]? = s.machine.cells[cellOf make]?) :
    Counts s' make (later ++ [call]) := by
  have hsame := callsOf_concat_of_not hcall later
  refine ⟨hcounts.result, ?_, ?_, ?_, hcounts.apart_concat hmaking⟩
  · rw [hcallable]
    exact hcounts.callable
  · rw [hsame, hcell]
    exact hcounts.cell
  · rw [hsame]
    exact hcounts.answers

/-- A call that makes no counter and completes no call of one. -/
theorem Tracked.record (ht : Tracked s log) (hcall : ¬IsMaking call)
    (hcallee : ∀ make ∈ log, IsMaking make →
      call.callee = .function (some (counterOf make)) → call.isCompleted = false) :
    Tracked s (log ++ [call]) := by
  refine ht.concat (Nat.le_refl _) (fun hmake => absurd hmake hcall) (fun _ hcell => hcell)
    (fun _ _ hcell => .inl hcell) (fun hmake => absurd hmake hcall) ?_
  intro before make later hlog hmake
  exact (ht.counts before make later hlog hmake).concat_of_not
    (fun hmaking => absurd hmaking hcall) (hcallee make (by simp [hlog]) hmake) rfl rfl

/-- **A counter is made:** a new cell gets the initial value, and a new function captures it. -/
theorem Tracked.made {v : Value} (ht : Tracked s log) (hcall : IsMaking call)
    (hs : call.session = s)
    (hresult : call.result = .ok (.function (some s.machine.callables.size)))
    (hcells : s'.machine.cells = s.machine.cells.push v)
    (hcallables : s'.machine.callables = s.machine.callables.push
      ⟨some (.body counterBody), [some s.machine.cells.size]⟩)
    (hnames : ∀ cell, s'.Names cell → s.Names cell)
    (hv : ∀ h : Heap, increment (h.view v) = increment (initialOf call)) :
    Tracked s' (log ++ [call]) := by
  have hsize : s'.machine.cells.size = s.machine.cells.size + 1 := by simp [hcells]
  have hcell : cellOf call = s.machine.cells.size := by rw [cellOf, hs]
  have hcounter : counterOf call = s.machine.callables.size := by rw [counterOf, hs]
  refine ht.concat (by omega) (fun _ => Nat.le_of_eq hcell.symm) hnames ?_ ?_ ?_
  · -- The new function is the only one that captures the new cell.
    rintro id cell ⟨callable, hid, hmem⟩
    rw [hcallables] at hid
    rcases getElem?_push_cases hid with hold | ⟨hlast, rfl⟩
    · exact .inl ⟨callable, hold, hmem⟩
    · cases List.mem_singleton.mp hmem
      exact .inr ⟨Nat.le_refl _, hsize ▸ Nat.lt_succ_self _, hcounter.trans hlast.symm⟩
  · -- The new counter has not been called yet.
    intro _
    refine ⟨by rw [hcounter]; exact hresult, ?_, ⟨v, ?_, hv⟩, ?_, ?_⟩
    · rw [hcounter, hcell, hcallables, Array.getElem?_push_size]
    · rw [hcell, hcells, Array.getElem?_push_size]
    · intro n call' hn
      cases hn
    · intro other hother
      cases hother
  · intro before make later hlog hmake
    have hmem : make ∈ log := by simp [hlog]
    have hcounts := ht.counts before make later hlog hmake
    have hcounter_ne : counterOf make ≠ s.machine.callables.size :=
      Nat.ne_of_lt (Array.getElem?_eq_some_iff.mp hcounts.callable).choose
    have hcell_ne : cellOf make ≠ s.machine.cells.size := Nat.ne_of_lt (ht.cell_lt hmem hmake)
    refine hcounts.concat_of_not (fun _ => hcounter ▸ hcounter_ne.symm) ?_ ?_ ?_
    · -- A call of a counter runs other code.
      intro hcallee
      have hcode := ht.code? hmem hmake hs hcallee
      rw [hcall.1] at hcode
      exact absurd (Option.some.inj hcode).symm counterBody_ne_makeCounterBody
    · rw [hcallables, Array.getElem?_push, if_neg hcounter_ne]
    · rw [hcells, Array.getElem?_push, if_neg hcell_ne]

/-- The counter itself counts a call of it. -/
theorem Counts.concat {later : List Invocation} {v w : Value} (hcounts : Counts s make later)
    (hcall : ¬IsMaking call)
    (hcallee : call.callee = .function (some (counterOf make))) (hdone : call.isCompleted = true)
    (hw : s.machine.cells[cellOf make]? = some w)
    (hcell : s'.machine.cells[cellOf make]? = some v)
    (hcallables : s'.machine.callables = s.machine.callables)
    (hv : ∀ h : Heap, h.view v = increment (s.heap.view w))
    (hanswer : call.answer = .ok (increment (s.heap.view w))) :
    Counts s' make (later ++ [call]) := by
  have hmore := callsOf_concat hcallee hdone later
  obtain ⟨w', hw', hnext⟩ := hcounts.cell
  rw [hw] at hw'
  cases hw'
  refine ⟨hcounts.result, ?_, ?_, ?_, hcounts.apart_concat fun h => absurd h hcall⟩
  · rw [hcallables]
    exact hcounts.callable
  · -- The cell now holds what this call returns, so the next one adds one more.
    refine ⟨v, hcell, ?_⟩
    intro h
    rw [hv, hnext, hmore, List.length_append]
    rfl
  · intro n call' hn
    rw [hmore, List.getElem?_append] at hn
    split at hn
    · exact hcounts.answers n call' hn
    · -- The last call returns what the cell is counted up to.
      next hge =>
      obtain ⟨hzero, rfl⟩ : n - (callsOf (counterOf make) later).length = 0 ∧ call = call' := by
        rw [List.getElem?_singleton] at hn
        split at hn
        · next hzero => exact ⟨hzero, Option.some.inj hn⟩
        · cases hn
      have hn' : n = (callsOf (counterOf make) later).length := by omega
      rw [hanswer, hnext, hn']

/-- **A counter is called:** what its cell holds is counted up, and returned. -/
theorem Tracked.counted {v w : Value} (ht : Tracked s log) (hmem : make ∈ log)
    (hmake : IsMaking make) (hs : call.session = s)
    (hcallee : call.callee = .function (some (counterOf make))) (hdone : call.isCompleted = true)
    (hw : s.machine.cells[cellOf make]? = some w)
    (hcells : s'.machine.cells = s.machine.cells.setIfInBounds (cellOf make) v)
    (hcallables : s'.machine.callables = s.machine.callables)
    (hnames : ∀ cell, s'.Names cell → s.Names cell)
    (hv : ∀ h : Heap, h.view v = increment (s.heap.view w))
    (hanswer : call.answer = .ok (increment (s.heap.view w))) :
    Tracked s' (log ++ [call]) := by
  have hsize : s'.machine.cells.size = s.machine.cells.size := by simp [hcells]
  have hcall : ¬IsMaking call := by
    intro hmaking
    have hcode := ht.code? hmem hmake hs hcallee
    rw [hmaking.1] at hcode
    exact counterBody_ne_makeCounterBody (Option.some.inj hcode).symm
  refine ht.concat (Nat.le_of_eq hsize.symm) (fun h => absurd h hcall) hnames ?_
    (fun h => absurd h hcall) ?_
  · rintro id cell ⟨callable, hid, hcaptured⟩
    rw [hcallables] at hid
    exact .inl ⟨callable, hid, hcaptured⟩
  · intro before other later hlog hother
    have hmem' : other ∈ log := by simp [hlog]
    have hcounts := ht.counts before other later hlog hother
    by_cases hsame : counterOf other = counterOf make
    · -- The same function has captured the same cell.
      have hcell : cellOf other = cellOf make := by
        have hcallable := hcounts.callable
        rw [hsame, ht.callable hmem hmake] at hcallable
        simpa using hcallable.symm
      rw [← hsame] at hcallee
      refine hcounts.concat hcall hcallee hdone (by rw [hcell]; exact hw) ?_ hcallables hv hanswer
      rw [hcells, hcell, Array.getElem?_setIfInBounds_self_of_lt (ht.cell_lt hmem hmake)]
    · -- Another counter has another cell.
      have hcell : cellOf make ≠ cellOf other := by
        intro heq
        have hcaptures := ht.captures hmem hmake
        exact hsame ((ht.captured _ _ hcaptures).2 other hmem' hother heq.symm)
      refine hcounts.concat_of_not (fun h => absurd h hcall) ?_ (by rw [hcallables]) ?_
      · intro hcallee'
        rw [hcallee] at hcallee'
        exact absurd (by simpa using hcallee'.symm) hsame
      · rw [hcells, Array.getElem?_setIfInBounds_ne hcell]

end Counter

end ValueRuntime
