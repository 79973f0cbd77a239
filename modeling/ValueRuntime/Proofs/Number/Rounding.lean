import Mathlib.Algebra.Group.Nat.Defs
import ValueRuntime.Number.Arithmetic

/-! # Rounding keeps order

    An exact result is a count of units, and rounding takes it to the nearest code. Two facts
    about that are used wherever numbers are added up:

    * `nearestCode_mono`: a larger count is never rounded to a smaller code.
    * `nearestCode_unitsOfCode`: a count that is a number already is not rounded at all.

    Together they say how a sum lies to its summands. What is added to a number moves it in the
    direction of the sign of what is added, or not at all.
-/

namespace ValueRuntime.Number

/-! ## Quotients -/

/-- A quotient is rounded down or to the next one. -/
theorem roundDiv_bounds (num den : Nat) :
    num / den ≤ roundDiv num den ∧ roundDiv num den ≤ num / den + 1 := by
  simp only [roundDiv]
  split <;> omega

/-- **Rounded quotients keep the order** of what is divided. -/
theorem roundDiv_mono {num num' : Nat} (den : Nat) (hle : num ≤ num') :
    roundDiv num den ≤ roundDiv num' den := by
  have hquotient : num / den ≤ num' / den := Nat.div_le_div_right hle
  by_cases hlt : num / den < num' / den
  · -- The next quotient is not above the other one.
    have := (roundDiv_bounds num den).2
    have := (roundDiv_bounds num' den).1
    omega
  · have hsame : num / den = num' / den := by omega
    have hrest : num % den ≤ num' % den := by
      have hnum := Nat.div_add_mod num den
      have hnum' := Nat.div_add_mod num' den
      rw [hsame] at hnum
      omega
    -- With the same quotient, the larger remainder is rounded up if the smaller one is.
    simp only [roundDiv, hsame, Bool.or_eq_true, Bool.and_eq_true, decide_eq_true_eq,
      beq_iff_eq]
    split <;> split <;> omega

/-- A multiple is divided exactly. -/
theorem roundDiv_mul {den : Nat} (hden : 0 < den) (k : Nat) : roundDiv (k * den) den = k := by
  have hzero : (0 == den) = false := by simpa using Nat.ne_of_lt hden
  simp [roundDiv, Nat.mul_div_cancel k hden, hzero]

/-! ## Codes -/

/-- How many binary digits of a quotient are dropped so that `p + 1` are left. -/
def droppedBits (p quotient : Nat) : Nat :=
  if quotient < Nat.pow 2 (p + 1) then 0 else quotient.log2 - p

theorem nearestCode_eq (p num den : Nat) :
    nearestCode p num den = droppedBits p (num / den) * 2 ^ p
      + roundDiv num (den * 2 ^ droppedBits p (num / den)) := rfl

/-- What is left of a quotient has at most `p + 1` digits. -/
theorem lt_of_droppedBits (p quotient : Nat) :
    quotient < 2 ^ (p + 1) * 2 ^ droppedBits p quotient := by
  unfold droppedBits
  split
  · next hsmall => simpa using hsmall
  · rw [← Nat.pow_add]
    have hlog : quotient < 2 ^ (quotient.log2 + 1) := Nat.lt_log2_self
    exact Nat.lt_of_lt_of_le hlog (Nat.pow_le_pow_right (by decide) (by omega))

/-- Where digits are dropped, `p + 1` are left. -/
theorem le_of_droppedBits {p quotient : Nat} (hdropped : droppedBits p quotient ≠ 0) :
    2 ^ p * 2 ^ droppedBits p quotient ≤ quotient := by
  unfold droppedBits at hdropped ⊢
  split at hdropped
  · exact absurd rfl hdropped
  · next hlarge =>
    rw [if_neg hlarge, ← Nat.pow_add, Nat.add_sub_cancel' (by omega)]
    exact Nat.log2_self_le (by rintro rfl; exact hlarge (Nat.pow_pos (by decide)))

theorem droppedBits_mono (p : Nat) {quotient quotient' : Nat} (hle : quotient ≤ quotient') :
    droppedBits p quotient ≤ droppedBits p quotient' := by
  by_cases hdropped : droppedBits p quotient = 0
  · omega
  · -- Fewer dropped digits would leave the larger quotient below the smaller one.
    apply Nat.le_of_lt_succ
    have hlow : 2 ^ p * 2 ^ droppedBits p quotient < 2 ^ p * 2 ^ (droppedBits p quotient' + 1) :=
      calc 2 ^ p * 2 ^ droppedBits p quotient ≤ quotient := le_of_droppedBits hdropped
        _ ≤ quotient' := hle
        _ < 2 ^ (p + 1) * 2 ^ droppedBits p quotient' := lt_of_droppedBits p quotient'
        _ = 2 ^ p * 2 ^ (droppedBits p quotient' + 1) := by
          rw [← Nat.pow_add, ← Nat.pow_add]
          congr 1
          omega
    have hpow := Nat.lt_of_mul_lt_mul_left hlow
    exact (Nat.pow_lt_pow_iff_right (by decide)).mp hpow

variable {den : Nat}

/-- The largest code with a given number of dropped digits. -/
theorem nearestCode_le (p num : Nat) (hden : 0 < den) :
    nearestCode p num den ≤ (droppedBits p (num / den) + 1) * 2 ^ p + 2 ^ p := by
  have hbelow : num ≤ 2 ^ (p + 1) * (den * 2 ^ droppedBits p (num / den)) := by
    have hquotient := lt_of_droppedBits p (num / den)
    rw [Nat.div_lt_iff_lt_mul hden] at hquotient
    rw [Nat.mul_left_comm, Nat.mul_comm den]
    omega
  have hround := roundDiv_mono (den * 2 ^ droppedBits p (num / den)) hbelow
  rw [roundDiv_mul (Nat.mul_pos hden (Nat.pow_pos (by decide))), Nat.pow_succ] at hround
  rw [nearestCode_eq, Nat.add_mul]
  omega

/-- The smallest code where digits are dropped. -/
theorem le_nearestCode {p num : Nat} (hden : 0 < den)
    (hdropped : droppedBits p (num / den) ≠ 0) :
    droppedBits p (num / den) * 2 ^ p + 2 ^ p ≤ nearestCode p num den := by
  have habove : 2 ^ p * (den * 2 ^ droppedBits p (num / den)) ≤ num := by
    have hquotient := le_of_droppedBits hdropped
    rw [Nat.le_div_iff_mul_le hden] at hquotient
    rw [Nat.mul_left_comm, Nat.mul_comm den]
    exact hquotient
  have hround := roundDiv_mono (den * 2 ^ droppedBits p (num / den)) habove
  rw [roundDiv_mul (Nat.mul_pos hden (Nat.pow_pos (by decide)))] at hround
  rw [nearestCode_eq]
  omega

/-- **Rounding keeps the order** of what is rounded. -/
theorem nearestCode_mono (p : Nat) (hden : 0 < den) {num num' : Nat} (hle : num ≤ num') :
    nearestCode p num den ≤ nearestCode p num' den := by
  have hdropped := droppedBits_mono p (Nat.div_le_div_right (c := den) hle)
  by_cases hsame : droppedBits p (num / den) = droppedBits p (num' / den)
  · rw [nearestCode_eq, nearestCode_eq, hsame]
    exact Nat.add_le_add_left (roundDiv_mono _ hle) _
  · -- Codes with fewer dropped digits end where those with more begin.
    have hmore : droppedBits p (num / den) + 1 ≤ droppedBits p (num' / den) := by omega
    calc nearestCode p num den
        ≤ (droppedBits p (num / den) + 1) * 2 ^ p + 2 ^ p := nearestCode_le p num hden
      _ ≤ droppedBits p (num' / den) * 2 ^ p + 2 ^ p :=
          Nat.add_le_add_right (Nat.mul_le_mul_right _ hmore) _
      _ ≤ nearestCode p num' den := le_nearestCode hden (by omega)

/-- A quotient with `p + 1` digits and some more has that many to drop. -/
theorem droppedBits_of_bounds {p more quotient : Nat} (hlow : 2 ^ (p + more) ≤ quotient)
    (hhigh : quotient < 2 ^ (p + more + 1)) : droppedBits p quotient = more := by
  by_cases hmore : more = 0
  · subst hmore
    exact if_pos hhigh
  · have hlarge : ¬quotient < 2 ^ (p + 1) :=
      Nat.not_lt.mpr (Nat.le_trans (Nat.pow_le_pow_right (by decide) (by omega)) hlow)
    have hne : quotient ≠ 0 := by
      have : 0 < 2 ^ (p + more) := Nat.pow_pos (by decide)
      omega
    have hlog : quotient.log2 = p + more := (Nat.log2_eq_iff hne).mpr ⟨hlow, hhigh⟩
    calc droppedBits p quotient = quotient.log2 - p := if_neg hlarge
      _ = more := by omega

/-- **A count that is a number already** is not rounded. -/
theorem nearestCode_unitsOfCode (p code : Nat) : nearestCode p (unitsOfCode p code) 1 = code := by
  have hpos : 0 < 2 ^ p := Nat.pow_pos (by decide)
  rw [nearestCode_eq, Nat.div_one, Nat.one_mul]
  by_cases hsmall : code < 2 ^ p
  · have hunits : unitsOfCode p code = code := if_pos hsmall
    have hdropped : droppedBits p code = 0 :=
      if_pos (Nat.lt_of_lt_of_le hsmall (Nat.pow_le_pow_right (by decide) (by omega)))
    rw [hunits, hdropped, Nat.pow_zero]
    simpa using roundDiv_mul Nat.one_pos code
  · have hmod : code % 2 ^ p < 2 ^ p := Nat.mod_lt _ hpos
    have hsplit : code / 2 ^ p * 2 ^ p + code % 2 ^ p = code := Nat.div_add_mod' code (2 ^ p)
    obtain ⟨doublings, hd⟩ : ∃ doublings, code / 2 ^ p = doublings + 1 :=
      Nat.exists_eq_add_one.mpr (Nat.div_pos (Nat.le_of_not_lt hsmall) hpos)
    have hunits : unitsOfCode p code = (2 ^ p + code % 2 ^ p) * 2 ^ doublings := by
      have heq : unitsOfCode p code = (2 ^ p + code % 2 ^ p) * 2 ^ (code / 2 ^ p - 1) :=
        if_neg hsmall
      rw [heq, hd, Nat.add_sub_cancel]
    -- The leading digit stands at `p`, so the doublings are what is dropped again.
    have hdropped : droppedBits p (unitsOfCode p code) = doublings := by
      apply droppedBits_of_bounds
      · rw [hunits, Nat.pow_add]
        exact Nat.mul_le_mul_right _ (by omega)
      · rw [hunits, Nat.add_right_comm, Nat.pow_add, Nat.pow_succ]
        exact Nat.mul_lt_mul_of_pos_right (by omega) (Nat.pow_pos (by decide))
    rw [hdropped, hunits, roundDiv_mul (Nat.pow_pos (by decide))]
    rw [hd, Nat.add_mul] at hsplit
    omega

/-! ## Places -/

/-- The place of the number nearest to a signed count of units. -/
def placeOfUnits (units : Int) : Int :=
  let code : Int := ↑(min (nearestCode fractionBits units.natAbs 1) infinityCode)
  if units < 0 then -code else code

theorem place?_ofUnits (zeroNegative : Bool) (units : Int) :
    (ofUnits zeroNegative units).place? = some (placeOfUnits units) := by
  unfold ofUnits
  split
  · next hzero =>
    subst hzero
    cases zeroNegative <;> rfl
  · simp only [ofRatio, place?, placeOfUnits, decide_eq_true_eq]

theorem placeOfUnits_mono {units units' : Int} (hle : units ≤ units') :
    placeOfUnits units ≤ placeOfUnits units' := by
  unfold placeOfUnits
  -- Below zero a larger count has the smaller magnitude.
  by_cases hneg : units < 0
  · by_cases hneg' : units' < 0
    · have hcodes := nearestCode_mono fractionBits Nat.one_pos
        (show units'.natAbs ≤ units.natAbs by omega)
      simp only [hneg, hneg', if_true]
      omega
    · simp only [hneg, hneg', if_true, if_false]
      omega
  · have hneg' : ¬units' < 0 := by omega
    have hcodes := nearestCode_mono fractionBits Nat.one_pos
      (show units.natAbs ≤ units'.natAbs by omega)
    simp only [hneg, hneg', if_false]
    omega

/-- **A finite number is the nearest number** to its own value. -/
theorem place?_of_isFinite {x : Number} (hx : x.isFinite = true) :
    x.place? = some (placeOfUnits x.signedUnits) := by
  cases x with
  | nan => cases hx
  | signed negative code =>
    have hcode : code.val < infinityCode := by simpa [isFinite] using hx
    have hround : min (nearestCode fractionBits (unitsOfCode fractionBits code.val) 1) infinityCode
        = code.val := by
      rw [nearestCode_unitsOfCode]
      omega
    cases negative with
    | false =>
      have hunits : (signed false code).signedUnits = unitsOfCode fractionBits code.val := rfl
      have hsign : ¬(unitsOfCode fractionBits code.val : Int) < 0 := by omega
      simp only [place?, placeOfUnits, hunits, Int.natAbs_natCast, hround, hsign,
        Bool.false_eq_true, if_false]
    | true =>
      have hunits : (signed true code).signedUnits = -unitsOfCode fractionBits code.val := rfl
      simp only [place?, placeOfUnits, hunits, Int.natAbs_neg, Int.natAbs_natCast, hround,
        if_true]
      by_cases hzero : unitsOfCode fractionBits code.val = 0
      · -- A count of zero has the code zero, so the sign does not matter.
        rw [hzero] at hround ⊢
        have hnone : nearestCode fractionBits 0 1 = 0 := rfl
        rw [hnone] at hround
        simp [← hround]
      · rw [if_pos (by omega)]

/-! ## Sums -/

theorem exists_place?_of_not_isNaN {x : Number} (hx : x.isNaN = false) :
    ∃ place, x.place? = some place := by
  cases x with
  | nan => cases hx
  | signed negative code => exact ⟨_, rfl⟩

theorem isNaN_of_isFinite {x : Number} (hx : x.isFinite = true) : x.isNaN = false := by
  cases x with
  | nan => cases hx
  | signed negative code => rfl

theorem place?_add {x y : Number} (hx : x.isFinite = true) (hy : y.isFinite = true) :
    (x.add y).place? = some (placeOfUnits (x.signedUnits + y.signedUnits)) := by
  unfold add
  simp only [isNaN_of_isFinite hx, isNaN_of_isFinite hy, hx, hy, Bool.or_false, Bool.and_true,
    if_true, Bool.false_eq_true, if_false]
  exact place?_ofUnits _ _

/-- An infinite number absorbs every finite one. -/
theorem add_of_not_isFinite {x y : Number} (hx : x.isNaN = false) (hinfinite : x.isFinite = false)
    (hy : y.isFinite = true) : x.add y = x := by
  simp [add, hx, isNaN_of_isFinite hy, hinfinite, hy]

/-- **What is added moves a number by its sign,** or not at all. The sum of a number and a
    finite one is a number. -/
theorem exists_place?_add {x y : Number} (hx : x.isNaN = false) (hy : y.isFinite = true) :
    ∃ a b, x.place? = some a ∧ (x.add y).place? = some b ∧
      (0 ≤ y.signedUnits → a ≤ b) ∧ (y.signedUnits ≤ 0 → b ≤ a) := by
  by_cases hfinite : x.isFinite = true
  · refine ⟨_, _, place?_of_isFinite hfinite, place?_add hfinite hy, ?_, ?_⟩
    · intro hsign
      exact placeOfUnits_mono (by omega)
    · intro hsign
      exact placeOfUnits_mono (by omega)
  · obtain ⟨place, hplace⟩ := exists_place?_of_not_isNaN hx
    rw [add_of_not_isFinite hx (by simpa using hfinite) hy]
    exact ⟨place, place, hplace, hplace, fun _ => Int.le_refl _, fun _ => Int.le_refl _⟩

end ValueRuntime.Number
