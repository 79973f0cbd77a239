import ValueRuntime.Proofs.Counter.Following

/-! # Counters count

    Code is given to a runtime piece by piece. Among the calls that this makes, some make
    counters and some call them, from wherever the function was copied to. The main result is
    `nth_call_returns_count`: the calls of one counter return its initial value counted up once,
    twice, and so on, as if nothing else had happened.
-/

namespace ValueRuntime

/-- The session after expressions are evaluated in turn, each with its own fuel. One that stops
    does not keep the next from being evaluated. -/
def Session.evaluated (s : Session) : List (Nat × Expr) → Session
  | [] => s
  | (fuel, e) :: rest => (s.after (Action.eval fuel e)).evaluated rest

/-- The calls that are made while expressions are evaluated in turn. -/
def Session.callsIn (s : Session) : List (Nat × Expr) → List Invocation
  | [] => []
  | (fuel, e) :: rest =>
    (Recorded.eval fuel e).calls s ++ (s.after (Action.eval fuel e)).callsIn rest

namespace Counter

theorem tracked_new (id name : Bytes) (writable : Bool) :
    Tracked (.new id name writable) [] where
  named := by
    rintro cell (⟨name', hname⟩ | ⟨frame, hframe, hnames⟩)
    · cases hname
    · cases List.mem_singleton.mp hframe
      rcases hnames with hcaptured | ⟨name', hlocal⟩
      · cases hcaptured
      · cases hlocal
  captured := by
    rintro id' cell ⟨callable, hid, hmem⟩
    -- The callables are the builtins, which capture nothing.
    have hbuiltin : callable ∈ Builtin.all.map fun b => (⟨some (.builtin b), []⟩ : Callable) := by
      have := Array.mem_of_getElem? hid
      simpa [Session.new, Machine.new] using this
    obtain ⟨b, -, rfl⟩ := List.mem_map.mp hbuiltin
    cases hmem
  counts := by
    intro before make later hlog
    simp at hlog

/-- **The counters are tracked through all that is evaluated.** -/
theorem Tracked.evaluated {s : Session} {log : List Invocation} (ht : Tracked s log)
    (script : List (Nat × Expr)) : Tracked (s.evaluated script) (log ++ s.callsIn script) := by
  induction script generalizing s log with
  | nil =>
    rw [Session.callsIn, List.append_nil]
    exact ht
  | cons entry rest ih =>
    have hfirst := (follows_eval entry.1 ht entry.2).tracked
    rw [Recorded.action_eval] at hfirst
    rw [Session.callsIn, ← List.append_assoc]
    exact ih hfirst

/-- A counter goes on to count. -/
theorem Counts.next {s : Session} {make : Invocation} {later : List Invocation}
    (hcounts : Counts s make later) {fuel : Nat} (hfuel : 3 ≤ fuel) (args : List Value) :
    let call := Action.call (Action.eval fuel) (.function (some (counterOf make))) args
    (s.result call).map (s.after call).heap.view
      = .ok (Nat.repeat increment ((callsOf (counterOf make) later).length + 1)
          (initialOf make)) := by
  intro call
  obtain ⟨w, hw, hnext⟩ := hcounts.cell
  obtain ⟨more, rfl⟩ : ∃ more, fuel = more + 3 := ⟨fuel - 3, by omega⟩
  obtain ⟨v, h, ⟨hresult, -⟩, hview⟩ := returns_counter hcounts.callable hw more args
  rw [hresult, Except.map, hview, hnext]

/-- **The n-th call of a counter returns its initial value counted up n times.** The initial
    value is what the argument held when the counter was made. It does not matter what else is
    called and done, where the function was copied to, or what becomes of the argument. No later
    call makes the same counter, and one more call would count on. -/
theorem nth_call_returns_count (id name : Bytes) (writable : Bool) (script : List (Nat × Expr))
    {before later : List Invocation} {make : Invocation}
    (hlog : (Session.new id name writable).callsIn script = before ++ make :: later)
    (hcode : make.code? = some makeCounterBody) (hdone : make.isCompleted = true) :
    ∃ counter, make.result = .ok (.function (some counter)) ∧
      (∀ (n : Nat) (call : Invocation), (callsOf counter later)[n]? = some call →
        call.answer = .ok (Nat.repeat increment (n + 1) (initialOf make))) ∧
      (∀ other ∈ later, IsMaking other → other.result ≠ .ok (.function (some counter))) ∧
      ∀ fuel args, 3 ≤ fuel →
        let s := (Session.new id name writable).evaluated script
        let call := Action.call (Action.eval fuel) (.function (some counter)) args
        (s.result call).map (s.after call).heap.view
          = .ok (Nat.repeat increment ((callsOf counter later).length + 1) (initialOf make)) := by
  have htracked := (tracked_new id name writable).evaluated script
  rw [List.nil_append] at htracked
  have hcounts := htracked.counts before make later hlog ⟨hcode, hdone⟩
  refine ⟨counterOf make, hcounts.result, hcounts.answers, ?_, ?_⟩
  · intro other hmem hother hresult
    -- The other call has made a counter of its own.
    have hmem' : other ∈ (Session.new id name writable).callsIn script := by
      rw [hlog]
      exact List.mem_append_right _ (List.mem_cons_of_mem _ hmem)
    obtain ⟨rest, hcounts'⟩ := htracked.counts_of_mem hmem' hother
    rw [hcounts'.result] at hresult
    exact hcounts.apart other hmem hother (by simpa using hresult)
  · intro fuel args hfuel
    exact hcounts.next hfuel args

/-- The first counter of the program counts from 12, whatever its other counter does. -/
theorem first_counter_of_program_counts :
    ∃ make later,
      (Session.new [] [] true).callsIn (program.map (programFuel, ·)) = [] ++ make :: later ∧
        make.code? = some makeCounterBody ∧ initialOf make = .number (.ofNat 12) ∧
        make.result = .ok (.function (some 7)) ∧ (callsOf 7 later).length = 3 ∧
        ∀ (n : Nat) (call : Invocation), (callsOf 7 later)[n]? = some call →
          call.answer = .ok (Nat.repeat increment (n + 1) (.number (.ofNat 12))) := by
  let log := (Session.new [] [] true).callsIn (program.map (programFuel, ·))
  have hcode : log.head?.bind Invocation.code? = some makeCounterBody := Eq.refl _
  have hdone : log.head?.map Invocation.isCompleted = some true := by decide +kernel
  have hinitial : log.head?.map initialOf = some (.number (.ofNat 12)) := Eq.refl _
  have hresult : log.head?.map Invocation.result = some (.ok (.function (some 7))) := by
    decide +kernel
  have hcount : (callsOf 7 log.tail).length = 3 := by decide +kernel
  cases hlog : log with
  | nil =>
    rw [hlog] at hdone
    cases hdone
  | cons make later =>
    simp only [hlog, List.head?_cons, Option.bind_some, Option.map_some, Option.some.injEq]
      at hcode hdone hinitial hresult
    rw [hlog, List.tail_cons] at hcount
    have hsplit : (Session.new [] [] true).callsIn (program.map (programFuel, ·))
        = [] ++ make :: later := hlog
    obtain ⟨counter, hcounter, hanswers, -, -⟩ :=
      nth_call_returns_count [] [] true _ hsplit hcode hdone
    obtain rfl : counter = 7 := by simpa [hresult] using hcounter.symm
    rw [hinitial] at hanswers
    exact ⟨make, later, hsplit, hcode, hinitial, hresult, hcount, hanswers⟩

end Counter

end ValueRuntime
