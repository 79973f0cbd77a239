import ValueRuntime.Operator
import ValueRuntime.Proofs.Number.Integers

/-! # Remainders of numbers

    The remainder of two numbers is taken of their integer parts. Both steps are exact. What is
    left of a number without its fraction has no more binary digits than the number, and the
    remainder of a division has no more digits than the dividend or than the divisor, whichever
    of the two ends further to the right. So however many digits the quotient has, nothing is
    rounded.
-/

namespace ValueRuntime

namespace Number

/-! ## Counts with few digits -/

/-- **A count of units is short** if a number has room for its binary digits, wherever these
    digits stand. -/
def IsShort (n : Nat) : Prop := ∃ m shift, m ≤ 2 ^ (fractionBits + 1) ∧ n = m * 2 ^ shift

theorem isShort_units (x : Number) : IsShort x.units := by
  cases x with
  | nan => exact ⟨0, 0, by decide, rfl⟩
  | signed negative code =>
    show IsShort (unitsOfCode fractionBits code.val)
    by_cases hsmall : code.val < Nat.pow 2 fractionBits
    · have hle : code.val ≤ 2 ^ (fractionBits + 1) :=
        Nat.le_trans (Nat.le_of_lt hsmall) (Nat.pow_le_pow_right (by decide) (by decide))
      exact ⟨code.val, 0, hle, by rw [unitsOfCode, if_pos hsmall, Nat.pow_zero, Nat.mul_one]⟩
    · have hmod : code.val % Nat.pow 2 fractionBits < 2 ^ fractionBits :=
        Nat.mod_lt _ (Nat.pow_pos (by decide))
      refine ⟨_, _, ?_, if_neg hsmall⟩
      rw [Nat.pow_succ]
      show 2 ^ fractionBits + _ ≤ _
      omega

/-- Digits that stand behind a place can be dropped. -/
theorem IsShort.dropFraction {n : Nat} (hn : IsShort n) (k : Nat) :
    IsShort (n / 2 ^ k * 2 ^ k) := by
  obtain ⟨m, shift, hm, rfl⟩ := hn
  by_cases hk : k ≤ shift
  · -- No digit stands behind that place.
    have hdvd : 2 ^ k ∣ m * 2 ^ shift := Nat.dvd_mul_left_of_dvd (Nat.pow_dvd_pow 2 hk) m
    exact ⟨m, shift, hm, Nat.div_mul_cancel hdvd⟩
  · refine ⟨m * 2 ^ shift / 2 ^ k, k, ?_, rfl⟩
    have hsmall : m * 2 ^ shift / 2 ^ k ≤ m := by
      apply Nat.div_le_of_le_mul
      rw [Nat.mul_comm]
      exact Nat.mul_le_mul_right m (Nat.pow_le_pow_right (by decide) (by omega))
    omega

/-- **A remainder is short.** It ends no further to the right than both operands, and is not
    larger than the one of them that ends there. -/
theorem IsShort.mod {a b : Nat} (ha : IsShort a) (hb : IsShort b) : IsShort (a % b) := by
  obtain ⟨m, s, hm, rfl⟩ := ha
  obtain ⟨k, t, hk, rfl⟩ := hb
  by_cases hst : s ≤ t
  · -- The dividend ends further to the right, and the remainder is not larger than it.
    refine ⟨m % (k * 2 ^ (t - s)), s, Nat.le_trans (Nat.mod_le _ _) hm, ?_⟩
    rw [← Nat.mul_mod_mul_right, Nat.mul_assoc, ← Nat.pow_add, Nat.sub_add_cancel hst]
  · -- The divisor does, and the remainder is smaller than it.
    have hpow : m * 2 ^ s = m * 2 ^ (s - t) * 2 ^ t := by
      rw [Nat.mul_assoc, ← Nat.pow_add, Nat.sub_add_cancel (by omega)]
    by_cases hzero : k = 0
    · subst hzero
      exact ⟨m, s, hm, by rw [Nat.zero_mul, Nat.mod_zero]⟩
    · refine ⟨m * 2 ^ (s - t) % k, t, ?_, ?_⟩
      · have := Nat.mod_lt (m * 2 ^ (s - t)) (Nat.pos_of_ne_zero hzero)
        omega
      · rw [hpow, Nat.mul_mod_mul_right]

/-! ## Exact results -/

/-- **A short count below a finite number is a number,** so that it is not rounded. -/
theorem IsShort.ofRatio_exact {n : Nat} (hn : IsShort n) {x : Number} (hx : x.isFinite = true)
    (hle : n ≤ x.units) (negative : Bool) :
    (ofRatio negative n 1).isFinite = true ∧ (ofRatio negative n 1).units = n := by
  obtain ⟨m, shift, hm, rfl⟩ := hn
  obtain ⟨code, -, hunits⟩ := exists_code fractionBits hm shift
  have hcode : nearestCode fractionBits (m * 2 ^ shift) 1 = code := by
    rw [← hunits]
    exact nearestCode_unitsOfCode fractionBits code
  have hfinite : code < infinityCode := by
    cases x with
    | nan => cases hx
    | signed sign above =>
      have habove : above.val < infinityCode := by simpa [isFinite] using hx
      -- Rounding keeps order, and the finite number is not rounded at all.
      have hmono := nearestCode_mono fractionBits Nat.one_pos hle
      rw [hcode, units, nearestCode_unitsOfCode] at hmono
      omega
  have hmin : min (nearestCode fractionBits (m * 2 ^ shift) 1) infinityCode = code := by
    rw [hcode]
    omega
  simp only [ofRatio, isFinite, units, hmin, hunits, decide_eq_true_eq, and_true]
  exact hfinite

/-- **The whole part** of a finite number: the integer part of its exact value, towards zero. -/
def wholePart (x : Number) : Int := x.signedUnits.tdiv unitsPerOne

theorem wholePart_eq (x : Number) :
    x.wholePart = if x.isNegative then -((x.units / unitsPerOne : Nat) : Int)
      else (x.units / unitsPerOne : Nat) := by
  unfold wholePart signedUnits
  split
  · rw [Int.neg_tdiv, Int.ofNat_tdiv]
  · rw [Int.ofNat_tdiv]

theorem natAbs_wholePart (x : Number) : x.wholePart.natAbs = x.units / unitsPerOne := by
  rw [wholePart_eq]
  split
  · rw [Int.natAbs_neg, Int.natAbs_natCast]
  · rw [Int.natAbs_natCast]

theorem isNegative_trunc (x : Number) : x.trunc.isNegative = x.isNegative := by
  unfold trunc
  split <;> rfl

/-- **Dropping the fraction is exact.** -/
theorem trunc_exact {x : Number} (hx : x.isFinite = true) :
    x.trunc.isFinite = true ∧ x.trunc.units = x.units / unitsPerOne * unitsPerOne := by
  obtain ⟨places, hone⟩ : ∃ places, unitsPerOne = 2 ^ places := ⟨1074, by decide +kernel⟩
  have hshort : IsShort (x.units / unitsPerOne * unitsPerOne) := by
    rw [hone]
    exact (isShort_units x).dropFraction places
  unfold trunc
  rw [if_pos hx]
  exact hshort.ofRatio_exact hx (Nat.div_mul_le_self _ _) x.isNegative

theorem isFinite_trunc (x : Number) : x.trunc.isFinite = x.isFinite := by
  by_cases hx : x.isFinite = true
  · rw [hx, (trunc_exact hx).1]
  · rw [trunc, if_neg hx]

theorem isZero_iff_units {x : Number} (hx : x.isFinite = true) : x.isZero = true ↔ x.units = 0 := by
  have hzero : x.isZero = true ↔ x.signedUnits = 0 := equal_iff_signedUnits hx rfl
  rw [hzero]
  unfold signedUnits
  split <;> omega

/-- **The remainder of two numbers** exists if both are finite and the divisor is not zero. -/
theorem rem?_eq_none_iff (x y : Number) :
    x.rem? y = none ↔ ¬(x.isFinite = true ∧ y.isFinite = true ∧ y.isZero = false) := by
  unfold rem?
  split
  · next hall => simpa [and_assoc] using hall
  · next hnot => simpa [and_assoc] using hnot

/-- **A remainder is exact.** -/
theorem rem?_exact {x y : Number} (hx : x.isFinite = true) (hy : y.isFinite = true)
    (hzero : y.units ≠ 0) :
    ∃ r, x.rem? y = some r ∧ r.isFinite = true ∧ r.units = x.units % y.units ∧
      r.isNegative = x.isNegative := by
  have hnonzero : y.isZero = false := by
    rw [Bool.eq_false_iff, ne_eq, isZero_iff_units hy]
    exact hzero
  have hrem : x.rem? y = some (ofRatio x.isNegative (x.units % y.units) 1) := by
    unfold rem?
    rw [hx, hy, hnonzero]
    rfl
  obtain ⟨hfinite, hunits⟩ := ((isShort_units x).mod (isShort_units y)).ofRatio_exact hx
    (Nat.mod_le _ _) x.isNegative
  exact ⟨_, hrem, hfinite, hunits, rfl⟩

/-- The remainder of whole parts, by the magnitudes and the sign of the dividend. -/
theorem tmod_wholePart (x y : Number) :
    x.wholePart.tmod y.wholePart
      = if x.isNegative then -((x.units / unitsPerOne % (y.units / unitsPerOne) : Nat) : Int)
        else (x.units / unitsPerOne % (y.units / unitsPerOne) : Nat) := by
  rw [wholePart_eq, wholePart_eq]
  generalize x.units / unitsPerOne = m
  generalize y.units / unitsPerOne = k
  have hmod : ∀ i : Int, i.tmod (if y.isNegative then -(k : Int) else k) = i.tmod k := by
    intro i
    split
    · rw [Int.tmod_neg]
    · rfl
  rw [hmod]
  split
  · rw [Int.neg_tmod, Int.ofNat_tmod]
  · rw [Int.ofNat_tmod]

/-- **The remainder of truncated numbers** is the remainder of their whole parts. -/
theorem rem?_trunc {x y : Number} (hx : x.isFinite = true) (hy : y.isFinite = true)
    (hone : unitsPerOne ≤ y.units) :
    ∃ r, x.trunc.rem? y.trunc = some r ∧ r.IsInteger (x.wholePart.tmod y.wholePart) ∧
      r.isNegative = x.isNegative := by
  obtain ⟨hfinite, hunits⟩ := trunc_exact hx
  obtain ⟨hfinite', hunits'⟩ := trunc_exact hy
  have hnonzero : y.trunc.units ≠ 0 := by
    rw [hunits']
    have hdiv : 0 < y.units / unitsPerOne := Nat.div_pos hone unitsPerOne_pos
    exact Nat.ne_of_gt (Nat.mul_pos hdiv unitsPerOne_pos)
  obtain ⟨r, hrem, hr, hrunits, hsign⟩ := rem?_exact hfinite hfinite' hnonzero
  rw [isNegative_trunc] at hsign
  refine ⟨r, hrem, ⟨hr, ?_⟩, hsign⟩
  rw [hunits, hunits', Nat.mul_mod_mul_right] at hrunits
  rw [signedUnits, hsign, hrunits, tmod_wholePart]
  split
  · rw [Int.natCast_mul, Int.neg_mul]
  · rw [Int.natCast_mul]

theorem isZero_trunc_iff {y : Number} (hy : y.isFinite = true) :
    y.trunc.isZero = false ↔ unitsPerOne ≤ y.units := by
  obtain ⟨hfinite, hunits⟩ := trunc_exact hy
  rw [Bool.eq_false_iff, ne_eq, isZero_iff_units hfinite, hunits, Nat.mul_eq_zero,
    Nat.div_eq_zero_iff]
  have := unitsPerOne_pos
  omega

theorem rem?_trunc_eq_none_iff (x y : Number) :
    x.trunc.rem? y.trunc = none ↔
      x.isFinite = false ∨ y.isFinite = false ∨ y.units < unitsPerOne := by
  rw [rem?_eq_none_iff, isFinite_trunc, isFinite_trunc, not_and_or, not_and_or, Bool.not_eq_true]
  by_cases hy : y.isFinite = true
  · rw [isZero_trunc_iff hy, Nat.not_le, Bool.not_eq_true]
  · simp [hy]

end Number

/-- **The remainder operator is the remainder of truncated division on integers.** For finite
    numbers, the divisor not below one in magnitude, the result is a number whose exact value is
    the remainder of the whole parts, smaller in magnitude than the whole part of the divisor,
    and its sign bit is that of the dividend, also on a zero. In all other cases the result is
    nil: for data that are no numbers, numbers that are not finite, and a divisor below one in
    magnitude. -/
theorem mod_exact_on_whole_parts :
    (∀ x y : Number, x.isFinite = true → y.isFinite = true → Number.unitsPerOne ≤ y.units →
      ∃ r, Operator.mod.apply (.number x) (.number y) = .ok (.number r) ∧
        r.IsInteger (x.wholePart.tmod y.wholePart) ∧
        (x.wholePart.tmod y.wholePart).natAbs < y.wholePart.natAbs ∧
        r.isNegative = x.isNegative) ∧
      ∀ a b : Datum, Operator.mod.apply a b = .ok .nil ↔
        ∀ x y : Number, a = .number x → b = .number y →
          x.isFinite = false ∨ y.isFinite = false ∨ y.units < Number.unitsPerOne := by
  constructor
  · intro x y hx hy hone
    obtain ⟨r, hrem, hvalue, hsign⟩ := Number.rem?_trunc hx hy hone
    refine ⟨r, ?_, hvalue, ?_, hsign⟩
    · show Except.ok ((x.trunc.rem? y.trunc).elim Datum.nil Datum.number) = _
      rw [hrem]
      rfl
    · rw [Int.natAbs_tmod]
      apply Nat.mod_lt
      rw [Number.natAbs_wholePart]
      exact Nat.div_pos hone Number.unitsPerOne_pos
  · intro a b
    cases a with
    | number x =>
      cases b with
      | number y =>
        have hnil : Operator.mod.apply (.number x) (.number y) = .ok .nil ↔
            x.trunc.rem? y.trunc = none := by
          show Except.ok ((x.trunc.rem? y.trunc).elim Datum.nil Datum.number) = _ ↔ _
          cases x.trunc.rem? y.trunc with
          | none => simp
          | some r => simp
        rw [hnil, Number.rem?_trunc_eq_none_iff]
        constructor
        · rintro hcases _ _ ⟨⟩ ⟨⟩
          exact hcases
        · intro hall
          exact hall x y rfl rfl
      | _ => exact ⟨fun _ _ _ _ hb => (by cases hb), fun _ => rfl⟩
    | _ => exact ⟨fun _ _ _ ha => (by cases ha), fun _ => rfl⟩

/-- The remainder of the least finite number, which has 309 digits, divided by `10.4` is `-8`.
    There is none for a division by one half. -/
theorem least_number_mod_ten :
    (∃ r, Operator.mod.apply (.number (.ofBits 0xffefffffffffffff))
        (.number (.ofBits 0x4024cccccccccccd)) = .ok (.number r) ∧
      r.IsInteger (-8) ∧ r.isNegative = true) ∧
      Operator.mod.apply (.number (.ofBits 0xffefffffffffffff))
        (.number (.ofBits 0x3fe0000000000000)) = .ok .nil := by
  obtain ⟨hexact, hnil⟩ := mod_exact_on_whole_parts
  constructor
  · obtain ⟨r, hresult, hvalue, -, hsign⟩ := hexact (.ofBits 0xffefffffffffffff)
      (.ofBits 0x4024cccccccccccd) (by decide) (by decide) (by decide +kernel)
    have hremainder : (Number.ofBits 0xffefffffffffffff).wholePart.tmod
        (Number.ofBits 0x4024cccccccccccd).wholePart = -8 := by decide +kernel
    rw [hremainder] at hvalue
    exact ⟨r, hresult, hvalue, hsign⟩
  · rw [hnil]
    rintro x y - hy
    cases hy
    exact .inr (.inr (by decide +kernel))

end ValueRuntime
