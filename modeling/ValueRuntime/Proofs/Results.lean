/-! # Results that may be errors

    How a sequence of steps ends: with the result of its last step, or with the error of the
    first step that has one.
-/

namespace ValueRuntime

variable {ε ε' α β : Type}

@[simp] theorem ok_bind (a : α) (f : α → Except ε β) : Except.ok a >>= f = f a := rfl

/-- A sequence that succeeds has a first step that succeeds. -/
theorem bind_eq_ok {x : Except ε α} {f : α → Except ε β} {b : β} (hb : x >>= f = .ok b) :
    ∃ a, x = .ok a ∧ f a = .ok b := by
  cases x with
  | error e => cases hb
  | ok a => exact ⟨a, rfl, hb⟩

/-- A sequence that fails does so in its first step or after it. -/
theorem bind_eq_error {x : Except ε α} {f : α → Except ε β} {e : ε}
    (he : x >>= f = .error e) : x = .error e ∨ ∃ a, x = .ok a ∧ f a = .error e := by
  cases x with
  | error e' =>
    cases he
    exact Or.inl rfl
  | ok a => exact Or.inr ⟨a, rfl, he⟩

theorem mapError_eq_ok {x : Except ε α} {f : ε → ε'} {a : α} (ha : x.mapError f = .ok a) :
    x = .ok a := by
  cases x with
  | error e => cases ha
  | ok b =>
    cases ha
    rfl

theorem mapError_eq_error {x : Except ε α} {f : ε → ε'} {e' : ε'}
    (he : x.mapError f = .error e') : ∃ e, x = .error e ∧ f e = e' := by
  cases x with
  | error e =>
    cases he
    exact ⟨e, rfl, rfl⟩
  | ok b => cases he

/-! ## Steps with a state -/

section States

variable {σ : Type} {s s' : σ} {x : ExceptT ε (StateM σ) α}

/-- After a step with a result, the rest is done in the state that it left. -/
theorem run_bind_of_ok {a : α} (hx : x.run s = (.ok a, s')) (f : α → ExceptT ε (StateM σ) β) :
    (x >>= f).run s = (f a).run s' := by
  simp only [bind, ExceptT.bind, ExceptT.run, ExceptT.mk, StateT.bind] at *
  rw [hx]
  rfl

/-- After a step that fails, nothing else is done. -/
theorem run_bind_of_error {e : ε} (hx : x.run s = (.error e, s'))
    (f : α → ExceptT ε (StateM σ) β) : (x >>= f).run s = (.error e, s') := by
  simp only [bind, ExceptT.bind, ExceptT.run, ExceptT.mk, StateT.bind] at *
  rw [hx]
  rfl

end States

/-! ## One step for each element of a list -/

theorem mem_of_mapM {f : α → Except ε β} {as : List α} {bs : List β}
    (hok : as.mapM f = .ok bs) {b : β} (hb : b ∈ bs) : ∃ a ∈ as, f a = .ok b := by
  induction as generalizing bs with
  | nil =>
    cases hok
    cases hb
  | cons a rest ih =>
    rw [List.mapM_cons] at hok
    obtain ⟨first, hfirst, hok'⟩ := bind_eq_ok hok
    obtain ⟨more, hmore, hdone⟩ := bind_eq_ok hok'
    cases hdone
    rcases List.mem_cons.mp hb with rfl | hb'
    · exact ⟨a, List.mem_cons_self, hfirst⟩
    · obtain ⟨a', ha', hfa'⟩ := ih hmore hb'
      exact ⟨a', List.mem_cons_of_mem _ ha', hfa'⟩

/-- When every step succeeds, so does the list of steps. -/
theorem exists_mapM {f : α → Except ε β} {as : List α} (hall : ∀ a ∈ as, ∃ b, f a = .ok b) :
    ∃ bs, as.mapM f = .ok bs := by
  induction as with
  | nil => exact ⟨[], rfl⟩
  | cons a rest ih =>
    obtain ⟨b, hb⟩ := hall a List.mem_cons_self
    obtain ⟨bs, hbs⟩ := ih fun a' ha' => hall a' (List.mem_cons_of_mem _ ha')
    refine ⟨b :: bs, ?_⟩
    rw [List.mapM_cons, hb, ok_bind, hbs]
    rfl

/-- What is known of each result makes the list of results. -/
theorem map_of_mapM {γ : Type} {f : α → Except ε β} {g : α → γ} {k : β → γ} {as : List α}
    {bs : List β} (hok : as.mapM f = .ok bs) (heach : ∀ a ∈ as, ∀ b, f a = .ok b → k b = g a) :
    bs.map k = as.map g := by
  induction as generalizing bs with
  | nil =>
    cases hok
    rfl
  | cons a rest ih =>
    rw [List.mapM_cons] at hok
    obtain ⟨first, hfirst, hok'⟩ := bind_eq_ok hok
    obtain ⟨more, hmore, hdone⟩ := bind_eq_ok hok'
    cases hdone
    rw [List.map_cons, List.map_cons, heach a List.mem_cons_self first hfirst,
      ih hmore fun a' ha' => heach a' (List.mem_cons_of_mem _ ha')]

/-- A list of steps that succeeds has a result for each element. -/
theorem result_of_mapM {f : α → Except ε β} {as : List α} {bs : List β}
    (hok : as.mapM f = .ok bs) {a : α} (ha : a ∈ as) : ∃ b ∈ bs, f a = .ok b := by
  induction as generalizing bs with
  | nil => cases ha
  | cons a' rest ih =>
    rw [List.mapM_cons] at hok
    obtain ⟨first, hfirst, hok'⟩ := bind_eq_ok hok
    obtain ⟨more, hmore, hdone⟩ := bind_eq_ok hok'
    cases hdone
    rcases List.mem_cons.mp ha with rfl | ha'
    · exact ⟨first, List.mem_cons_self, hfirst⟩
    · obtain ⟨b, hb, hfb⟩ := ih hmore ha'
      exact ⟨b, List.mem_cons_of_mem _ hb, hfb⟩

end ValueRuntime
