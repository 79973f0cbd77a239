import Mathlib.Algebra.Order.Field.Power
import Mathlib.Data.Rat.Cast.Order
import Mathlib.Tactic.FieldSimp
import Mathlib.Tactic.Linarith
import Mathlib.Tactic.NormNum
import Mathlib.Tactic.Positivity
import Mathlib.Tactic.Ring
import ValueRuntime.Number.Text
import ValueRuntime.Proofs.Number.Rounding

/-! # Nearest decimals

    A decimal with six significant digits is nearest to a value if no other one is nearer, and if
    the last digit is even in case another one is as near. There is only one such decimal for a
    value, and `Decimal.nearest` finds it.

    The value lies between two powers of ten, the *decade* of the value. Within the decade the
    decimals are the multiples of one step, and rounding the value, counted in steps, to an integer
    gives the nearest one of them. Outside of the decade no decimal is nearer than the two ends of
    the decade, which are multiples of the step themselves. Where the upper end is the nearest one,
    it is written with the next exponent.
-/

namespace ValueRuntime.Number

/-! ## Decimals -/

/-- **The exact value** of a decimal. -/
def Decimal.value (d : Decimal) : ℚ := d.digits * 10 ^ (d.exponent - 5)

/-- A decimal all of whose six digits are significant. -/
def Decimal.IsFull (d : Decimal) : Prop := 10 ^ 5 ≤ d.digits ∧ d.digits < 10 ^ 6

/-- **The nearest decimal** to a value. Of two that are as near, it is the one whose last digit is
    even. -/
structure Decimal.IsNearest (d : Decimal) (q : ℚ) : Prop where
  full : d.IsFull
  nearest : ∀ d' : Decimal, d'.IsFull → |q - d.value| ≤ |q - d'.value|
  even : ∀ d' : Decimal, d'.IsFull → d' ≠ d → |q - d.value| = |q - d'.value| →
    d.digits % 2 = 0

theorem tenPow_pos (e : ℤ) : (0 : ℚ) < 10 ^ e := by positivity

theorem tenPow_add (a b : ℤ) : (10 : ℚ) ^ (a + b) = 10 ^ a * 10 ^ b :=
  zpow_add₀ (by norm_num) a b

theorem tenPow_mono {a b : ℤ} (hab : a ≤ b) : (10 : ℚ) ^ a ≤ 10 ^ b :=
  zpow_le_zpow_right₀ (by norm_num) hab

/-- The step from one decimal to the next in a decade. -/
def stepOf (e : ℤ) : ℚ := 10 ^ (e - 5)

theorem stepOf_pos (e : ℤ) : 0 < stepOf e := tenPow_pos _

/-- A decade begins after `10 ^ 5` steps and ends after `10 ^ 6`. -/
theorem decade_eq (e : ℤ) :
    (10 : ℚ) ^ e = (10 ^ 5 : ℕ) * stepOf e ∧ (10 : ℚ) ^ (e + 1) = (10 ^ 6 : ℕ) * stepOf e := by
  have hsteps : ∀ k : ℕ, ((10 ^ k : ℕ) : ℚ) * stepOf e = 10 ^ (k + (e - 5)) := by
    intro k
    rw [tenPow_add, zpow_natCast, Nat.cast_pow, Nat.cast_ofNat, stepOf]
  rw [hsteps, hsteps]
  constructor
  · congr 1
    push_cast
    ring
  · congr 1
    push_cast
    ring

/-- A full decimal lies in the decade of its exponent. -/
theorem Decimal.IsFull.bounds {d : Decimal} (hd : d.IsFull) :
    (10 : ℚ) ^ d.exponent ≤ d.value ∧ d.value < 10 ^ (d.exponent + 1) := by
  have hstep := stepOf_pos d.exponent
  obtain ⟨hbegin, hend⟩ := decade_eq d.exponent
  have hlow : ((10 ^ 5 : ℕ) : ℚ) ≤ d.digits := by exact_mod_cast hd.1
  have hhigh : (d.digits : ℚ) < (10 ^ 6 : ℕ) := by exact_mod_cast hd.2
  rw [hbegin, hend]
  constructor
  · exact mul_le_mul_of_nonneg_right hlow hstep.le
  · exact mul_lt_mul_of_pos_right hhigh hstep

/-! ## The decade of a value -/

/-- Powers of ten are counted up to the last one that is not above. -/
theorem tensBelow_spec {num den : ℕ} (fuel : ℕ) (hle : den ≤ num) (hfuel : num < den * 10 ^ fuel) :
    den * 10 ^ tensBelow num den fuel ≤ num ∧ num < den * 10 ^ (tensBelow num den fuel + 1) := by
  induction fuel generalizing den with
  | zero => omega
  | succ fuel ih =>
    rw [tensBelow]
    split
    · next hmore =>
      -- The divisor takes up one power of ten, and one less is left to find.
      have hrest : num < den * 10 * 10 ^ fuel := by
        rw [Nat.mul_assoc, ← Nat.pow_succ']
        exact hfuel
      obtain ⟨hlow, hhigh⟩ := ih hmore hrest
      constructor
      · rw [Nat.pow_succ', ← Nat.mul_assoc]
        exact hlow
      · rw [Nat.pow_succ', ← Nat.mul_assoc]
        exact hhigh
    · next hless =>
      rw [Nat.pow_zero, Nat.zero_add, Nat.pow_one]
      omega

/-- Powers of ten are counted up to the first one that reaches. -/
theorem tensToReach_spec {num den : ℕ} (fuel : ℕ) (hlt : num < den)
    (hfuel : den ≤ num * 10 ^ fuel) :
    ∃ k, tensToReach num den fuel = k + 1 ∧ num * 10 ^ k < den ∧ den ≤ num * 10 ^ (k + 1) := by
  induction fuel generalizing num with
  | zero => omega
  | succ fuel ih =>
    rw [tensToReach, if_pos hlt]
    by_cases hmore : num * 10 < den
    · have hrest : den ≤ num * 10 * 10 ^ fuel := by
        rw [Nat.mul_assoc, ← Nat.pow_succ']
        exact hfuel
      obtain ⟨k, hk, hlow, hhigh⟩ := ih hmore hrest
      refine ⟨k + 1, by rw [hk], ?_, ?_⟩
      · rw [Nat.pow_succ', ← Nat.mul_assoc]
        exact hlow
      · rw [Nat.pow_succ', ← Nat.mul_assoc]
        exact hhigh
    · refine ⟨0, ?_, by simpa using hlt, by simpa using hmore⟩
      cases fuel with
      | zero => rfl
      | succ fuel => rw [tensToReach, if_neg hmore]

/-- **The decimal exponent** of a ratio gives its decade. -/
theorem decimalExponent_spec {num den : ℕ} (hden : 0 < den) (hlow : den ≤ num * 10 ^ 400)
    (hhigh : num < den * 10 ^ 400) :
    (10 : ℚ) ^ decimalExponent num den ≤ num / den ∧
      (num / den : ℚ) < 10 ^ (decimalExponent num den + 1) := by
  have hpos : (0 : ℚ) < den := by exact_mod_cast hden
  rw [le_div_iff₀ hpos, div_lt_iff₀ hpos]
  unfold decimalExponent
  split
  · next hle =>
    obtain ⟨hbelow, habove⟩ := tensBelow_spec 400 hle hhigh
    generalize tensBelow num den 400 = k at hbelow habove
    rw [zpow_natCast, ← Nat.cast_succ, zpow_natCast, mul_comm _ (den : ℚ), mul_comm _ (den : ℚ)]
    exact ⟨by exact_mod_cast hbelow, by exact_mod_cast habove⟩
  · next hlt =>
    obtain ⟨k, hk, hbelow, habove⟩ := tensToReach_spec 400 (Nat.lt_of_not_le hlt) hlow
    rw [hk]
    have hbelow' : (num : ℚ) * 10 ^ k < den := by exact_mod_cast hbelow
    have habove' : (den : ℚ) ≤ num * 10 ^ (k + 1) := by exact_mod_cast habove
    have hexp : -((k + 1 : ℕ) : ℤ) + 1 = -(k : ℤ) := by
      push_cast
      ring
    rw [hexp, zpow_neg, zpow_neg, zpow_natCast, zpow_natCast, inv_mul_le_iff₀ (by positivity),
      lt_inv_mul_iff₀ (by positivity)]
    constructor
    · rw [mul_comm]
      exact habove'
    · rw [mul_comm]
      exact hbelow'

/-! ## Rounding to an integer -/

theorem roundDiv_cases (num den : ℕ) :
    (roundDiv num den = num / den ∧ 2 * (num % den) ≤ den ∧
        (2 * (num % den) = den → num / den % 2 = 0)) ∨
      (roundDiv num den = num / den + 1 ∧ den ≤ 2 * (num % den) ∧
        (2 * (num % den) = den → num / den % 2 = 1)) := by
  simp only [roundDiv, Bool.or_eq_true, Bool.and_eq_true, decide_eq_true_eq, beq_iff_eq]
  split
  · exact .inr ⟨rfl, by omega, by omega⟩
  · exact .inl ⟨rfl, by omega, by omega⟩

/-- **A rounded quotient** is at most one half away from the quotient, and even if it is one half
    away. -/
theorem roundDiv_within (num : ℕ) {den : ℕ} (hden : 0 < den) :
    |(num / den : ℚ) - roundDiv num den| ≤ 1 / 2 ∧
      (|(num / den : ℚ) - roundDiv num den| = 1 / 2 → roundDiv num den % 2 = 0) := by
  have hpos : (0 : ℚ) < den := by exact_mod_cast hden
  have hsplit : (num / den : ℚ) = (num / den : ℕ) + (num % den : ℕ) / den := by
    have hcast : (num : ℚ) = den * (num / den : ℕ) + (num % den : ℕ) := by
      exact_mod_cast (Nat.div_add_mod num den).symm
    rw [hcast]
    field_simp
  have hnonneg : (0 : ℚ) ≤ (num % den : ℕ) / den := by positivity
  have hbelow : ((num % den : ℕ) / den : ℚ) < 1 := by
    rw [div_lt_one hpos]
    exact_mod_cast Nat.mod_lt _ hden
  have hhalf : ((num % den : ℕ) / den : ℚ) = 1 / 2 → 2 * (num % den) = den := by
    intro heq
    rw [div_eq_iff hpos.ne'] at heq
    have hdouble : (2 : ℚ) * (num % den : ℕ) = den := by linarith
    exact_mod_cast hdouble
  -- What matters is on which side of one half the remainder lies.
  rw [hsplit]
  rcases roundDiv_cases num den with ⟨hround, hrest, heven⟩ | ⟨hround, hrest, hodd⟩
  · have hrest' : ((num % den : ℕ) / den : ℚ) ≤ 1 / 2 := by
      have hcast : (2 : ℚ) * (num % den : ℕ) ≤ den := by exact_mod_cast hrest
      rw [div_le_iff₀ hpos]
      linarith
    rw [hround, add_sub_cancel_left, abs_of_nonneg hnonneg]
    exact ⟨hrest', fun heq => heven (hhalf heq)⟩
  · have hrest' : 1 / 2 ≤ ((num % den : ℕ) / den : ℚ) := by
      have hcast : (den : ℚ) ≤ 2 * (num % den : ℕ) := by exact_mod_cast hrest
      rw [le_div_iff₀ hpos]
      linarith
    rw [hround, Nat.cast_succ, add_sub_add_left_eq_sub, abs_of_neg (by linarith)]
    refine ⟨by linarith, fun heq => ?_⟩
    have := hodd (hhalf (by linarith))
    omega

/-- **An integer at most one half away is a nearest one.** If another one is as near, it is one
    half away. -/
theorem nearest_of_within {r : ℚ} {n k : ℤ} (hwithin : |r - n| ≤ 1 / 2) :
    |r - n| ≤ |r - k| ∧ (k ≠ n → |r - n| = |r - k| → |r - n| = 1 / 2) := by
  by_cases hkn : k = n
  · subst hkn
    exact ⟨le_refl _, fun hne => absurd rfl hne⟩
  · have hone : (1 : ℚ) ≤ |(n : ℚ) - k| := by
      have : (1 : ℤ) ≤ |n - k| := Int.one_le_abs (sub_ne_zero.mpr (Ne.symm hkn))
      exact_mod_cast this
    have htriangle : |(n : ℚ) - k| ≤ |r - n| + |r - k| := by
      have hsum := abs_sub_le (n : ℚ) r k
      rwa [abs_sub_comm (n : ℚ) r] at hsum
    exact ⟨by linarith, fun _ heq => by linarith⟩

/-! ## Steps within a decade -/

/-- The distance to a multiple of the step, counted in steps. -/
theorem dist_steps (q : ℚ) (e k : ℤ) : |q - k * stepOf e| = |q / stepOf e - k| * stepOf e := by
  have hstep := stepOf_pos e
  rw [← abs_of_pos hstep, ← abs_mul, abs_of_pos hstep, sub_mul, div_mul_cancel₀ _ hstep.ne']

namespace Decimal

variable {d d' : Decimal} {q : ℚ} {e : ℤ} {n : ℕ}

theorem value_eq (d : Decimal) : d.value = d.digits * stepOf d.exponent := rfl

/-- **The decimal after a number of steps.** The end of a decade is the beginning of the next. -/
def ofSteps (e : ℤ) (n : ℕ) : Decimal :=
  if n = Nat.pow 10 precision then ⟨Nat.pow 10 (precision - 1), e + 1⟩ else ⟨n, e⟩

theorem isFull_ofSteps (e : ℤ) (hlow : 10 ^ 5 ≤ n) (hhigh : n ≤ 10 ^ 6) : (ofSteps e n).IsFull := by
  unfold ofSteps
  split
  · show 10 ^ 5 ≤ 10 ^ 5 ∧ 10 ^ 5 < 10 ^ 6
    decide
  · next hne => exact ⟨hlow, lt_of_le_of_ne hhigh hne⟩

theorem value_ofSteps (e : ℤ) (n : ℕ) : (ofSteps e n).value = n * stepOf e := by
  unfold ofSteps
  split
  · next hn =>
    have hend : n = 10 ^ 6 := hn
    rw [hend, ← (decade_eq e).2, (decade_eq (e + 1)).1]
    rfl
  · rfl

theorem even_ofSteps (e : ℤ) (n : ℕ) : (ofSteps e n).digits % 2 = n % 2 := by
  unfold ofSteps
  split
  · next hn =>
    rw [hn]
    show Nat.pow 10 (precision - 1) % 2 = Nat.pow 10 precision % 2
    decide
  · rfl

/-- **Full decimals of the same value are the same.** -/
theorem IsFull.eq_of_value (hd : d.IsFull) (hd' : d'.IsFull) (hvalue : d.value = d'.value) :
    d = d' := by
  have hexponent : ∀ {a b : Decimal}, a.IsFull → b.IsFull → a.value = b.value →
      a.exponent ≤ b.exponent := by
    intro a b ha hb hsame
    by_contra hlt
    have hdecade : (10 : ℚ) ^ (b.exponent + 1) ≤ 10 ^ a.exponent := tenPow_mono (by omega)
    have := ha.bounds.1
    have := hb.bounds.2
    linarith
  have hsame : d.exponent = d'.exponent :=
    le_antisymm (hexponent hd hd' hvalue) (hexponent hd' hd hvalue.symm)
  have hdigits : d.digits = d'.digits := by
    rw [value_eq, value_eq, hsame] at hvalue
    exact_mod_cast mul_right_cancel₀ (stepOf_pos _).ne' hvalue
  cases d
  cases d'
  simp_all

/-- **For every decimal there is a multiple of the step as near** to a value in a decade. It is the
    decimal itself, or the end of the decade that lies between. -/
theorem IsFull.exists_steps (hd : d.IsFull) (hlow : (10 : ℚ) ^ e ≤ q) (hhigh : q < 10 ^ (e + 1)) :
    ∃ k : ℕ, |q - k * stepOf e| ≤ |q - d.value| ∧
      (|q - k * stepOf e| = |q - d.value| → d.value = k * stepOf e) := by
  obtain ⟨hbegin, hend⟩ := decade_eq e
  obtain ⟨hdlow, hdhigh⟩ := hd.bounds
  rcases lt_trichotomy d.exponent e with hbelow | hsame | habove
  · -- The decimal lies below the decade.
    have hdecade : (10 : ℚ) ^ (d.exponent + 1) ≤ 10 ^ e := tenPow_mono (by omega)
    refine ⟨10 ^ 5, ?_⟩
    rw [← hbegin, abs_of_nonneg (by linarith), abs_of_nonneg (by linarith)]
    exact ⟨by linarith, fun heq => by linarith⟩
  · refine ⟨d.digits, ?_⟩
    rw [← hsame, ← value_eq]
    exact ⟨le_refl _, fun _ => rfl⟩
  · -- The decimal lies above the decade, or at its end.
    have hdecade : (10 : ℚ) ^ (e + 1) ≤ 10 ^ d.exponent := tenPow_mono (by omega)
    refine ⟨10 ^ 6, ?_⟩
    rw [← hend, abs_of_neg (by linarith), abs_of_neg (by linarith)]
    exact ⟨by linarith, fun heq => by linarith⟩

/-- A number of steps near to a value in a decade does not leave the decade. It may be its end. -/
theorem steps_in_decade (hlow : (10 : ℚ) ^ e ≤ q) (hhigh : q < 10 ^ (e + 1))
    (hwithin : |q / stepOf e - n| ≤ 1 / 2) : 10 ^ 5 ≤ n ∧ n ≤ 10 ^ 6 := by
  obtain ⟨hbegin, hend⟩ := decade_eq e
  have hlow' : ((10 ^ 5 : ℕ) : ℚ) ≤ q / stepOf e := by
    rw [le_div_iff₀ (stepOf_pos e), ← hbegin]
    exact hlow
  have hhigh' : q / stepOf e < (10 ^ 6 : ℕ) := by
    rw [div_lt_iff₀ (stepOf_pos e), ← hend]
    exact hhigh
  have hbounds := abs_le.mp hwithin
  -- One half is less than one, so the bounds hold for the integer too.
  have habove : ((10 ^ 5 : ℕ) : ℚ) < (n + 1 : ℕ) := by
    push_cast at hlow' ⊢
    linarith
  have hbelow : (n : ℚ) < (10 ^ 6 + 1 : ℕ) := by
    push_cast at hhigh' ⊢
    linarith
  exact ⟨Nat.le_of_lt_succ (by exact_mod_cast habove), Nat.le_of_lt_succ (by exact_mod_cast hbelow)⟩

/-- **The nearest number of steps** is nearest among all multiples of the step. -/
theorem nearest_steps (hwithin : |q / stepOf e - n| ≤ 1 / 2)
    (heven : |q / stepOf e - n| = 1 / 2 → n % 2 = 0) (k : ℕ) :
    |q - n * stepOf e| ≤ |q - k * stepOf e| ∧
      (k ≠ n → |q - n * stepOf e| = |q - k * stepOf e| → n % 2 = 0) := by
  have hstep := stepOf_pos e
  have hdist : ∀ k : ℕ, |q - k * stepOf e| = |q / stepOf e - k| * stepOf e := by
    intro k
    exact_mod_cast dist_steps q e k
  obtain ⟨hle, htie⟩ := nearest_of_within (k := k) (n := n) (r := q / stepOf e)
    (by exact_mod_cast hwithin)
  rw [hdist, hdist]
  refine ⟨mul_le_mul_of_nonneg_right (by exact_mod_cast hle) hstep.le, fun hne hsame => ?_⟩
  apply heven
  have hcancel := mul_right_cancel₀ hstep.ne' hsame
  exact_mod_cast htie (by exact_mod_cast hne) (by exact_mod_cast hcancel)

/-- **The nearest number of steps is the nearest decimal.** -/
theorem isNearest_ofSteps (hlow : (10 : ℚ) ^ e ≤ q) (hhigh : q < 10 ^ (e + 1))
    (hwithin : |q / stepOf e - n| ≤ 1 / 2)
    (heven : |q / stepOf e - n| = 1 / 2 → n % 2 = 0) : (ofSteps e n).IsNearest q := by
  obtain ⟨hbegin, hend⟩ := steps_in_decade hlow hhigh hwithin
  have hfull := isFull_ofSteps e hbegin hend
  have hnear := nearest_steps hwithin heven
  rw [← value_ofSteps] at hnear
  -- Every decimal has a multiple of the step beside it that is as near.
  refine ⟨hfull, fun d' hd' => ?_, fun d' hd' hne hsame => ?_⟩
  · obtain ⟨k, hk, -⟩ := hd'.exists_steps hlow hhigh
    exact (hnear k).1.trans hk
  · obtain ⟨k, hk, hvalue⟩ := hd'.exists_steps hlow hhigh
    have hk' := (hnear k).1
    have hequal : |q - k * stepOf e| = |q - d'.value| := le_antisymm hk (by rw [← hsame]; exact hk')
    rw [even_ofSteps]
    refine (hnear k).2 ?_ (by rw [hsame, hequal])
    intro hkn
    apply hne
    apply hd'.eq_of_value hfull
    rw [hvalue hequal, hkn, value_ofSteps]

/-! ## Uniqueness -/

/-- No decimal lies between a decimal and the one that is one step further. -/
theorem IsFull.next_le (hd : d.IsFull) (hd' : d'.IsFull) (hlt : d.value < d'.value) :
    (ofSteps d.exponent (d.digits + 1)).value ≤ d'.value := by
  have hstep := stepOf_pos d.exponent
  rw [value_ofSteps]
  rcases lt_trichotomy d'.exponent d.exponent with hbelow | hsame | habove
  · -- The decade of the other one would end before this one begins.
    have hdecade : (10 : ℚ) ^ (d'.exponent + 1) ≤ 10 ^ d.exponent := tenPow_mono (by omega)
    have := hd.bounds.1
    have := hd'.bounds.2
    linarith
  · rw [value_eq, value_eq, hsame] at hlt
    have hdigits : d.digits < d'.digits := by
      exact_mod_cast lt_of_mul_lt_mul_right hlt hstep.le
    rw [value_eq d', hsame]
    exact mul_le_mul_of_nonneg_right (by exact_mod_cast hdigits) hstep.le
  · -- One step further is still in this decade, or at its end.
    have hdecade : (10 : ℚ) ^ (d.exponent + 1) ≤ 10 ^ d'.exponent := tenPow_mono (by omega)
    have hend : ((d.digits + 1 : ℕ) : ℚ) * stepOf d.exponent ≤ 10 ^ (d.exponent + 1) := by
      rw [(decade_eq d.exponent).2]
      exact mul_le_mul_of_nonneg_right (by exact_mod_cast hd.2) hstep.le
    have := hd'.bounds.1
    linarith

/-- **A decimal above a nearest one, and as near, is the next one:** anything between the two would
    be nearer. -/
theorem IsNearest.eq_next (hd : d.IsNearest q) (hd' : d'.IsFull) (hlt : d.value < d'.value)
    (hsame : |q - d.value| = |q - d'.value|) : d' = ofSteps d.exponent (d.digits + 1) := by
  -- The value lies in the middle between the two.
  have hmiddle : q - d.value = d'.value - q := by
    rcases abs_eq_abs.mp hsame with heq | heq <;> linarith
  have hnextFull : (ofSteps d.exponent (d.digits + 1)).IsFull :=
    isFull_ofSteps _ (Nat.le_succ_of_le hd.full.1) hd.full.2
  have hnextAbove : d.value < (ofSteps d.exponent (d.digits + 1)).value := by
    rw [value_ofSteps, value_eq]
    exact mul_lt_mul_of_pos_right (by exact_mod_cast Nat.lt_succ_self _) (stepOf_pos _)
  apply hd'.eq_of_value hnextFull
  by_contra hother
  have hbetween : (ofSteps d.exponent (d.digits + 1)).value < d'.value :=
    lt_of_le_of_ne (hd.full.next_le hd' hlt) (Ne.symm hother)
  have hnearer := hd.nearest _ hnextFull
  rw [abs_of_pos (by linarith : 0 < q - d.value), le_abs] at hnearer
  rcases hnearer with hnear | hnear <;> linarith

/-- Of two nearest decimals none is above the other: both would be even, and one of two
    neighbours is odd. -/
theorem IsNearest.not_value_lt (hd : d.IsNearest q) (hd' : d'.IsNearest q) :
    ¬d.value < d'.value := by
  intro hlt
  have hne : d ≠ d' := by
    rintro rfl
    exact lt_irrefl _ hlt
  have hsame : |q - d.value| = |q - d'.value| :=
    le_antisymm (hd.nearest d' hd'.full) (hd'.nearest d hd.full)
  have heven := hd.even d' hd'.full hne.symm hsame
  have heven' := hd'.even d hd.full hne hsame.symm
  rw [hd.eq_next hd'.full hlt hsame, even_ofSteps] at heven'
  omega

/-- **There is only one nearest decimal.** -/
theorem IsNearest.unique (hd : d.IsNearest q) (hd' : d'.IsNearest q) : d = d' := by
  apply hd.full.eq_of_value hd'.full
  exact le_antisymm (not_lt.mp (hd'.not_value_lt hd)) (not_lt.mp (hd.not_value_lt hd'))

/-- A full decimal is nearest to its own value. -/
theorem IsFull.isNearest_value (hd : d.IsFull) : d.IsNearest d.value := by
  have hself : |d.value - d.value| = 0 := by rw [sub_self, abs_zero]
  refine ⟨hd, fun d' _ => ?_, fun d' hd' hne hsame => ?_⟩
  · rw [hself]
    exact abs_nonneg _
  · rw [hself] at hsame
    exact absurd (hd.eq_of_value hd' (sub_eq_zero.mp (abs_eq_zero.mp hsame.symm))).symm hne

/-! ## Finding the nearest decimal -/

variable {num den : ℕ}

/-- The digits of the nearest decimal are a rounded quotient: the ratio in steps. -/
theorem exists_roundDiv (num : ℕ) (hden : 0 < den) :
    ∃ a b : ℕ, 0 < b ∧ (a / b : ℚ) = num / den / stepOf (decimalExponent num den) ∧
      nearest num den = ofSteps (decimalExponent num den) (roundDiv a b) := by
  unfold nearest
  generalize decimalExponent num den = e
  by_cases hsmall : e < precision
  · have hshift : ((5 - e).toNat : ℤ) = 5 - e := Int.toNat_of_nonneg (by
      have : e < 6 := hsmall
      omega)
    refine ⟨num * 10 ^ (5 - e).toNat, den, hden, ?_, ?_⟩
    · have hpow : (10 : ℚ) ^ (5 - e).toNat = (stepOf e)⁻¹ := by
        rw [← zpow_natCast, hshift, stepOf, ← zpow_neg, neg_sub]
      rw [Nat.cast_mul, Nat.cast_pow, Nat.cast_ofNat, hpow]
      ring
    · simp only [if_pos hsmall]
      rfl
  · have hshift : ((e - 5).toNat : ℤ) = e - 5 := Int.toNat_of_nonneg (by
      have : ¬e < 6 := hsmall
      omega)
    refine ⟨num, den * 10 ^ (e - 5).toNat, Nat.mul_pos hden (Nat.pow_pos (by decide)), ?_, ?_⟩
    · have hpow : (10 : ℚ) ^ (e - 5).toNat = stepOf e := by
        rw [← zpow_natCast, hshift, stepOf]
      rw [Nat.cast_mul, Nat.cast_pow, Nat.cast_ofNat, hpow, div_div]
    · simp only [if_neg hsmall]
      rfl

/-- **`Decimal.nearest` is the nearest decimal.** -/
theorem isNearest_nearest (hden : 0 < den) (hlow : den ≤ num * 10 ^ 400)
    (hhigh : num < den * 10 ^ 400) : (nearest num den).IsNearest (num / den) := by
  obtain ⟨hdecade, hdecade'⟩ := decimalExponent_spec hden hlow hhigh
  obtain ⟨a, b, hb, hratio, hnearest⟩ := exists_roundDiv num hden
  obtain ⟨hwithin, heven⟩ := roundDiv_within a hb
  rw [hratio] at hwithin heven
  rw [hnearest]
  exact isNearest_ofSteps hdecade hdecade' hwithin heven

end Decimal

end ValueRuntime.Number
