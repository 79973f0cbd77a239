import Mathlib.Data.List.Chain
import ValueRuntime.Progression
import ValueRuntime.Proofs.Number.Rounding

/-! # Ranges end

    A range is computed by a walk with a bound on its steps. `Walked` describes the same walk
    without one: it goes on until a number is past the end or a step changes nothing. The bound
    is never what ends it, because each step leads at least one place on in the order of the
    numbers, and there are only so many places up to the end.

    Ranges up and ranges down are treated as one. The *way* of a number is its place, counted
    in the direction from the start to the end.
-/

namespace ValueRuntime

namespace Number

/-! ## Walks without a bound -/

/-- **A walk that ends by itself:** at a number that is not to be reached, or where a step
    changes nothing. -/
inductive Walked (advance : Number → Number) (reaches : Number → Bool) :
    Number → List Number → Prop where
  | passed {x : Number} (hpassed : reaches x = false) : Walked advance reaches x []
  | absorbed {x : Number} (hreaches : reaches x = true) (hsame : (advance x).equal x = true) :
      Walked advance reaches x [x]
  | step {x : Number} {rest : List Number} (hreaches : reaches x = true)
      (hmoves : (advance x).equal x = false) (hrest : Walked advance reaches (advance x) rest) :
      Walked advance reaches x (x :: rest)

section Walks

variable {advance : Number → Number} {reaches : Number → Bool} {P : Number → Prop}
  {x : Number} {numbers : List Number}

/-- **A bound that is large enough does not end a walk.** It is, when a rank of the numbers
    falls with each step and is not zero where the walk goes on. -/
theorem walked_walk (rank : Number → Nat)
    (hrank : ∀ x, P x → reaches x = true → 0 < rank x)
    (hstep : ∀ x, P x → reaches x = true → (advance x).equal x = false →
      P (advance x) ∧ rank (advance x) < rank x)
    {fuel : Nat} (hx : P x) (hfuel : rank x ≤ fuel) :
    Walked advance reaches x (walk advance reaches fuel x) := by
  induction fuel generalizing x with
  | zero =>
    cases hreaches : reaches x with
    | false => exact .passed hreaches
    | true =>
      have := hrank x hx hreaches
      omega
  | succ fuel ih =>
    rw [walk]
    cases hreaches : reaches x with
    | false => exact .passed hreaches
    | true =>
      cases hmoves : (advance x).equal x with
      | true => exact .absorbed hreaches hmoves
      | false =>
        obtain ⟨hnext, hless⟩ := hstep x hx hreaches hmoves
        exact .step hreaches hmoves (ih hnext (by omega))

theorem Walked.head? (hwalk : Walked advance reaches x numbers) (hreaches : reaches x = true) :
    numbers.head? = some x := by
  cases hwalk with
  | passed hpassed =>
    rw [hreaches] at hpassed
    cases hpassed
  | absorbed => rfl
  | step => rfl

/-- Every number of a walk is to be reached. -/
theorem Walked.mem (hwalk : Walked advance reaches x numbers)
    (hP : ∀ x, P x → P (advance x)) (hx : P x) : ∀ y ∈ numbers, P y ∧ reaches y = true := by
  induction hwalk with
  | passed => simp
  | absorbed hreaches => simpa using ⟨hx, hreaches⟩
  | step hreaches _ _ ih =>
    rw [List.forall_mem_cons]
    exact ⟨⟨hx, hreaches⟩, ih (hP _ hx)⟩

/-- Numbers that follow each other in a walk are one step apart. -/
theorem Walked.isChain {R : Number → Number → Prop} (hwalk : Walked advance reaches x numbers)
    (hP : ∀ x, P x → P (advance x))
    (hR : ∀ x, P x → (advance x).equal x = false → R x (advance x)) (hx : P x) :
    numbers.IsChain R := by
  induction hwalk with
  | passed => exact .nil
  | absorbed => exact .singleton _
  | @step x rest _ hmoves hrest ih =>
    -- The rest is empty or begins with the next number.
    cases hrest with
    | passed => exact .singleton _
    | absorbed => exact .cons_cons (hR x hx hmoves) (ih (hP x hx))
    | step => exact .cons_cons (hR x hx hmoves) (ih (hP x hx))

/-- **Why a walk ends:** the next number is not to be reached, or it is the last one again. -/
theorem Walked.getLast? (hwalk : Walked advance reaches x numbers) (hP : ∀ x, P x → P (advance x))
    (hx : P x) (hreaches : reaches x = true) :
    ∃ last, numbers.getLast? = some last ∧ P last ∧
      (reaches (advance last) = false ∨ (advance last).equal last = true) := by
  induction hwalk with
  | passed hpassed =>
    rw [hreaches] at hpassed
    cases hpassed
  | absorbed _ hsame => exact ⟨_, rfl, hx, .inr hsame⟩
  | @step x rest _ _ hrest ih =>
    cases hnext : reaches (advance x) with
    | false =>
      -- The walk stops right behind `x`.
      cases hrest with
      | passed => exact ⟨x, rfl, hx, .inl hnext⟩
      | absorbed hreaches' =>
        rw [hnext] at hreaches'
        cases hreaches'
      | step hreaches' =>
        rw [hnext] at hreaches'
        cases hreaches'
    | true =>
      obtain ⟨last, hlast, hend⟩ := ih (hP x hx) hnext
      exact ⟨last, by rw [List.getLast?_cons, hlast]; rfl, hend⟩

end Walks

/-! ## The direction of a range -/

/-- The next number of a range. -/
def onward (start stop step x : Number) : Number :=
  if start.less stop then x.add step else x.sub step

/-- Whether `y` comes behind `x` in the direction from `start` to `stop`. -/
def isPast (start stop x y : Number) : Bool := if start.less stop then x.less y else y.less x

/-- Whether a range still has a number in it, given that it came so far. -/
def isInside (start stop x : Number) : Bool :=
  if start.less stop then x.less stop || x.equal stop else !x.less stop

theorem progression_eq (start stop step : Number) :
    progression start stop step
      = walk (onward start stop step) (isInside start stop) (start.distance stop + 1) start := by
  unfold progression
  by_cases hup : start.less stop = true
  · have honward : onward start stop step = (·.add step) := funext fun x => if_pos hup
    have hinside : isInside start stop = fun x => x.less stop || x.equal stop :=
      funext fun x => if_pos hup
    rw [if_pos hup, honward, hinside]
  · have honward : onward start stop step = (·.sub step) := funext fun x => if_neg hup
    have hinside : isInside start stop = fun x => !x.less stop := funext fun x => if_neg hup
    rw [if_neg hup, honward, hinside]

/-- The place of a number, counted in the direction from `start` to `stop`. -/
def way (start stop x : Number) : Int :=
  if start.less stop then x.place?.getD 0 else -x.place?.getD 0

section Ways

variable {start stop step x y : Number}

theorem less_iff (hx : x.isNaN = false) (hy : y.isNaN = false) :
    x.less y = true ↔ x.place?.getD 0 < y.place?.getD 0 := by
  obtain ⟨a, ha⟩ := exists_place?_of_not_isNaN hx
  obtain ⟨b, hb⟩ := exists_place?_of_not_isNaN hy
  simp [less, ha, hb]

theorem equal_iff_place (hx : x.isNaN = false) (hy : y.isNaN = false) :
    x.equal y = true ↔ x.place?.getD 0 = y.place?.getD 0 := by
  obtain ⟨a, ha⟩ := exists_place?_of_not_isNaN hx
  obtain ⟨b, hb⟩ := exists_place?_of_not_isNaN hy
  simp [equal, ha, hb]

variable (start stop) in
theorem equal_iff_way (hx : x.isNaN = false) (hy : y.isNaN = false) :
    x.equal y = true ↔ way start stop x = way start stop y := by
  rw [equal_iff_place hx hy]
  unfold way
  split <;> omega

theorem isPast_iff (hx : x.isNaN = false) (hy : y.isNaN = false) :
    isPast start stop x y = true ↔ way start stop x < way start stop y := by
  unfold isPast way
  split
  · exact less_iff hx hy
  · rw [less_iff hy hx]
    omega

/-- A number is inside as long as it is not past the end. -/
theorem isInside_iff (hstop : stop.isNaN = false) (hx : x.isNaN = false) :
    isInside start stop x = true ↔ way start stop x ≤ way start stop stop := by
  unfold isInside way
  split
  · rw [Bool.or_eq_true, less_iff hx hstop, equal_iff_place hx hstop]
    omega
  · rw [Bool.not_eq_true', ← Bool.not_eq_true, less_iff hx hstop]
    omega

/-- The start is on the way to the end. -/
theorem isInside_start (hstart : start.isNaN = false) (hstop : stop.isNaN = false) :
    isInside start stop start = true := by
  rw [isInside_iff hstop hstart]
  unfold way
  split
  · next hup =>
    rw [less_iff hstart hstop] at hup
    omega
  · next hdown =>
    rw [less_iff hstart hstop] at hdown
    omega

theorem isNaN_of_place? {place : Int} (hplace : x.place? = some place) : x.isNaN = false := by
  cases x with
  | nan => cases hplace
  | signed negative code => rfl

theorem isFinite_negate (x : Number) : x.negate.isFinite = x.isFinite := by
  cases x <;> rfl

theorem signedUnits_negate (x : Number) : x.negate.signedUnits = -x.signedUnits := by
  cases x with
  | nan => rfl
  | signed negative code => cases negative <;> simp [negate, signedUnits, isNegative, units]

/-- A positive number has its magnitude as its value. -/
theorem signedUnits_of_pos (hpos : (zero false).less step = true) : 0 ≤ step.signedUnits := by
  cases step with
  | nan => cases hpos
  | signed negative code =>
    have hplace : 0 < (if negative then -(code.val : Int) else code.val) := by
      simpa [less, place?, zero] using hpos
    cases negative with
    | true =>
      simp only [if_true] at hplace
      omega
    | false => simp [signedUnits, isNegative]

variable (start stop) in
/-- **One step** leads to a number, and never back. -/
theorem way_le_onward (hpos : (zero false).less step = true) (hfinite : step.isFinite = true)
    (hx : x.isNaN = false) :
    (onward start stop step x).isNaN = false ∧
      way start stop x ≤ way start stop (onward start stop step x) := by
  have hsign := signedUnits_of_pos hpos
  unfold onward way
  split
  · obtain ⟨a, b, ha, hb, hup, -⟩ := exists_place?_add hx hfinite
    refine ⟨isNaN_of_place? hb, ?_⟩
    simpa [ha, hb] using hup hsign
  · -- A step down adds the negated step.
    have hfinite' : step.negate.isFinite = true := by rw [isFinite_negate, hfinite]
    obtain ⟨a, b, ha, hb, -, hdown⟩ := exists_place?_add hx hfinite'
    refine ⟨isNaN_of_place? hb, ?_⟩
    rw [signedUnits_negate] at hdown
    simpa [sub, ha, hb] using hdown (by omega)

end Ways

/-! ## Ranges -/

/-- **The whole range** from `start` to `stop`: it begins at the start, goes on step by step
    towards the end and never past it, and stops only where a further step would lead past
    the end or changes nothing. -/
structure IsRange (start stop step : Number) (numbers : List Number) : Prop where
  begins : numbers.head? = some start
  steps : numbers.IsChain fun x y => y = onward start stop step x ∧ isPast start stop x y = true
  inside : ∀ x ∈ numbers, isPast start stop stop x = false
  maximal : ∃ last, numbers.getLast? = some last ∧
    (isPast start stop stop (onward start stop step last) = true ∨
      (onward start stop step last).equal last = true)

section Range

variable {start stop step : Number} (hstart : start.isNaN = false) (hstop : stop.isNaN = false)
  (hpos : (zero false).less step = true) (hfinite : step.isFinite = true)

include hstart hstop hpos hfinite

/-- **The bound on the steps of a range is never what ends it.** The rank of a number is the
    number of places left up to the end. -/
theorem walked_progression :
    Walked (onward start stop step) (isInside start stop) start (progression start stop step) := by
  rw [progression_eq]
  refine walked_walk (P := (·.isNaN = false))
    (fun x => (way start stop stop + 1 - way start stop x).toNat) ?_ ?_ hstart ?_
  · intro x hx hinside
    rw [isInside_iff hstop hx] at hinside
    omega
  · intro x hx hinside hmoves
    obtain ⟨hnext, hle⟩ := way_le_onward start stop hpos hfinite hx
    rw [isInside_iff hstop hx] at hinside
    rw [← Bool.not_eq_true, equal_iff_way start stop hnext hx] at hmoves
    exact ⟨hnext, by omega⟩
  · simp only [distance, way]
    split <;> omega

theorem isRange_progression : IsRange start stop step (progression start stop step) := by
  have hwalk := walked_progression hstart hstop hpos hfinite
  have hinside := isInside_start hstart hstop
  have hnext : ∀ x : Number, x.isNaN = false → (onward start stop step x).isNaN = false :=
    fun x hx => (way_le_onward start stop hpos hfinite hx).1
  refine ⟨hwalk.head? hinside, ?_, ?_, ?_⟩
  · apply hwalk.isChain hnext ?_ hstart
    intro x hx hmoves
    have hle := (way_le_onward start stop hpos hfinite hx).2
    rw [← Bool.not_eq_true, equal_iff_way start stop (hnext x hx) hx]
      at hmoves
    exact ⟨rfl, (isPast_iff hx (hnext x hx)).mpr (by omega)⟩
  · intro x hx
    obtain ⟨hnumber, hreached⟩ := hwalk.mem hnext hstart x hx
    rw [isInside_iff hstop hnumber] at hreached
    rw [← Bool.not_eq_true, isPast_iff hstop hnumber]
    omega
  · obtain ⟨last, hlast, hnumber, hend⟩ := hwalk.getLast? hnext hstart hinside
    refine ⟨last, hlast, hend.imp ?_ id⟩
    intro hpassed
    rw [← Bool.not_eq_true, isInside_iff hstop (hnext last hnumber)] at hpassed
    rw [isPast_iff hstop (hnext last hnumber)]
    omega

end Range

end Number

open Number

/-- The step that a datum stands for, if it is one: nil stands for one. -/
def Datum.StandsForStep (step : Datum) (s : Number) : Prop :=
  step = .number s ∨ step = .nil ∧ s = .ofNat 1

/-- The list of a progression, as it is after its numbers were appended one by one. -/
def Datum.ofProgression (start stop step : Number) : Datum :=
  .list (capacityAfter defaultCapacity 0 (progression start stop step).length)
    ((progression start stop step).map .number)

/-- The range between two numbers. -/
theorem Datum.range_of_numbers {step : Datum} {s : Number} (hstep : step.StandsForStep s)
    (a b : Number) :
    Datum.range (.number a) (.number b) step
      = if !(zero false).less s || !s.isFinite || a.isNaN || b.isNaN then .nil
        else if a.equal b then .list defaultCapacity []
        else Datum.ofProgression a b s := by
  rcases hstep with rfl | ⟨rfl, rfl⟩ <;> rfl

/-- There is no range for anything but numbers. -/
theorem Datum.range_of_not_numbers {start stop step : Datum}
    (hargs : ¬∃ a b s, start = .number a ∧ stop = .number b ∧ step.StandsForStep s) :
    start.range stop step = .nil := by
  unfold Datum.range
  dsimp only
  split
  · next a b s hstep =>
    refine absurd ⟨a, b, s, rfl, rfl, ?_⟩ hargs
    cases step with
    | nil => exact .inr ⟨rfl, (Datum.number.inj hstep).symm⟩
    | _ => exact .inl hstep
  · rfl

/-- **Every range ends.** It is nil, it is empty, or it is the walk from one number towards
    another, and that walk ends by itself. -/
theorem Datum.range_cases (start stop step : Datum) :
    start.range stop step = .nil ∨ start.range stop step = .list defaultCapacity [] ∨
      ∃ a b s, start = .number a ∧ stop = .number b ∧ step.StandsForStep s ∧
        start.range stop step = Datum.ofProgression a b s ∧
        Walked (onward a b s) (isInside a b) a (progression a b s) := by
  by_cases hargs : ∃ a b s, start = .number a ∧ stop = .number b ∧ step.StandsForStep s
  · obtain ⟨a, b, s, rfl, rfl, hstep⟩ := hargs
    have hrange := range_of_numbers hstep a b
    split at hrange
    · exact .inl hrange
    · next hvalid =>
      split at hrange
      · exact .inr (.inl hrange)
      · simp only [Bool.or_eq_true, Bool.not_eq_true', not_or, Bool.not_eq_false,
          Bool.not_eq_true] at hvalid
        obtain ⟨⟨⟨hpos, hfinite⟩, ha⟩, hb⟩ := hvalid
        exact .inr (.inr ⟨a, b, s, rfl, rfl, hstep, hrange,
          walked_progression ha hb hpos hfinite⟩)
  · exact .inl (range_of_not_numbers hargs)

/-- **A range is the whole progression from its start towards its end.** The walk behind every
    range ends by itself. Between two different numbers, infinite ones among them, and with a
    positive finite step, the range begins with the start, each further number is the one
    before it plus the step (minus the step on the way down), all of them lead strictly
    towards the end and none past it, and it stops only because one more step would lead past
    the end or would change nothing. -/
theorem range_is_whole_progression :
    (∀ start stop step : Datum,
      start.range stop step = .nil ∨ start.range stop step = .list defaultCapacity [] ∨
        ∃ a b s, start = .number a ∧ stop = .number b ∧ step.StandsForStep s ∧
          start.range stop step = Datum.ofProgression a b s ∧
          Walked (onward a b s) (isInside a b) a (progression a b s)) ∧
      ∀ (start stop s : Number) (step : Datum), start.isNaN = false → stop.isNaN = false →
        start.equal stop = false → step.StandsForStep s → (zero false).less s = true →
        s.isFinite = true →
        Datum.range (.number start) (.number stop) step = Datum.ofProgression start stop s ∧
          IsRange start stop s (progression start stop s) := by
  refine ⟨Datum.range_cases, ?_⟩
  intro start stop s step hstart hstop hdiffer hstep hpos hfinite
  refine ⟨?_, isRange_progression hstart hstop hpos hfinite⟩
  rw [Datum.range_of_numbers hstep]
  simp [hpos, hfinite, hstart, hstop, hdiffer]

/-- A range up to infinity in steps of the largest finite number: one step goes through, the
    next one overflows to the end, and from there a step changes nothing. -/
theorem range_overflows_to_its_end :
    let largest := Number.ofBits 0x7fefffffffffffff
    Datum.range (.number (.zero true)) (.number (.infinity false)) (.number largest)
        = .list 8 [.number (.zero true), .number largest, .number (.infinity false)] ∧
      IsRange (.zero true) (.infinity false) largest [.zero true, largest, .infinity false] := by
  intro largest
  have heval : progression (.zero true) (.infinity false) largest
      = [.zero true, largest, .infinity false] := by
    decide +kernel
  obtain ⟨hrange, hwhole⟩ := range_is_whole_progression.2 (.zero true) (.infinity false) largest
    (.number largest) rfl rfl rfl (.inl rfl) (by decide +kernel) (by decide +kernel)
  rw [heval] at hwhole
  refine ⟨?_, hwhole⟩
  rw [hrange, Datum.ofProgression, heval]
  rfl

/-- A step that is too small to change a number ends the range there. -/
example : progression (.ofNat 1) (.ofNat 2) (.ofBits 1) = [.ofNat 1] := by decide +kernel

end ValueRuntime
