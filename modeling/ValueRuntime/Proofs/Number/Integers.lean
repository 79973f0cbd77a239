import Mathlib.Algebra.Group.Int.Defs
import Mathlib.Data.List.Forall2
import ValueRuntime.Proofs.Number.Ranges

/-! # Integers among the numbers

    A number *is an integer* when its exact value is that integer. Every integer up to `2 ^ 53`
    in magnitude is a number, since it has at most as many binary digits as a number keeps. So
    sums and differences of such numbers are exact as long as they stay within that bound, and
    comparing the numbers is comparing the integers.

    With this a range between integers can be told in advance. Its walk meets the integers that
    lie one step apart, and the last step of the walk, the one that leads past the end, is exact
    as well.
-/

namespace ValueRuntime

namespace Number

/-! ## Codes of integers -/

/-- The number of units of a code with all its `p + 1` digits, or with the next power of two. -/
theorem unitsOfCode_full (p shift : Nat) {m : Nat} (hlow : 2 ^ p ≤ m) (hhigh : m ≤ 2 ^ (p + 1)) :
    unitsOfCode p (shift * 2 ^ p + m) = m * 2 ^ shift := by
  have hpos : 0 < 2 ^ p := Nat.pow_pos (by decide)
  have hlarge : ¬shift * 2 ^ p + m < 2 ^ p := by omega
  have hunits : unitsOfCode p (shift * 2 ^ p + m)
      = (2 ^ p + (shift * 2 ^ p + m) % 2 ^ p) * 2 ^ ((shift * 2 ^ p + m) / 2 ^ p - 1) :=
    if_neg hlarge
  rw [hunits, Nat.mul_add_mod_self_right, Nat.add_comm (shift * 2 ^ p),
    Nat.add_mul_div_right _ _ hpos]
  by_cases htop : m = 2 ^ (p + 1)
  · -- The next power of two has the first code with one more doubling.
    have hdiv : m / 2 ^ p = 2 := by
      rw [htop, Nat.pow_succ, Nat.mul_div_cancel_left _ hpos]
    have hmod : m % 2 ^ p = 0 := by
      rw [htop, Nat.pow_succ, Nat.mul_mod_right]
    rw [hdiv, hmod, Nat.add_zero, htop, ← Nat.pow_add, ← Nat.pow_add]
    congr 1
    omega
  · have hbelow : m < 2 ^ p * 2 := by
      rw [Nat.pow_succ] at hhigh htop
      omega
    have hdiv : m / 2 ^ p = 1 := by
      rw [Nat.div_eq_iff hpos]
      omega
    have hmod : m % 2 ^ p = m - 2 ^ p := by
      have hsplit := Nat.div_add_mod m (2 ^ p)
      rw [hdiv] at hsplit
      omega
    rw [hdiv, hmod, Nat.add_sub_cancel' hlow]
    congr 2
    omega

/-- **A count with few binary digits is a number,** wherever these digits stand. -/
theorem exists_code (p : Nat) {m : Nat} (hm : m ≤ 2 ^ (p + 1)) (shift : Nat) :
    ∃ code, code ≤ (shift + 2) * 2 ^ p ∧ unitsOfCode p code = m * 2 ^ shift := by
  have hdouble : 2 ^ (p + 1) = 2 ^ p + 2 ^ p := by
    rw [Nat.pow_succ]
    omega
  induction shift generalizing m with
  | zero =>
    by_cases hsmall : m < 2 ^ p
    · refine ⟨m, by omega, ?_⟩
      rw [Nat.pow_zero, Nat.mul_one]
      exact if_pos hsmall
    · exact ⟨0 * 2 ^ p + m, by omega, unitsOfCode_full p 0 (by omega) hm⟩
  | succ shift ih =>
    by_cases hsmall : m < 2 ^ p
    · -- There is room for one more digit, so the shift can be one less.
      obtain ⟨code, hle, hunits⟩ := ih (m := 2 * m) (by omega)
      refine ⟨code, ?_, ?_⟩
      · exact Nat.le_trans hle (Nat.mul_le_mul_right _ (by omega))
      · rw [hunits, Nat.pow_succ, Nat.mul_comm 2 m, Nat.mul_assoc, Nat.mul_comm 2]
    · refine ⟨(shift + 1) * 2 ^ p + m, ?_, unitsOfCode_full p (shift + 1) (by omega) hm⟩
      have hsplit : (shift + 1 + 2) * 2 ^ p = (shift + 1) * 2 ^ p + 2 * 2 ^ p := Nat.add_mul _ _ _
      omega

/-! ## Numbers that are integers -/

/-- **A number is an integer** when that is its exact value. Both zeros are the integer zero. -/
structure IsInteger (x : Number) (i : Int) : Prop where
  finite : x.isFinite = true
  units : x.signedUnits = i * unitsPerOne

theorem unitsPerOne_pos : 0 < unitsPerOne := by decide +kernel

section Exact

variable {i : Int}

/-- The code of an integer. It is the nearest one to its units, and finite. -/
theorem exists_code_integer (hi : (i.natAbs : Int) ≤ 2 ^ 53) :
    ∃ code, code < infinityCode ∧ nearestCode fractionBits (i.natAbs * unitsPerOne) 1 = code ∧
      unitsOfCode fractionBits code = i.natAbs * unitsPerOne := by
  obtain ⟨shift, hshift, hone⟩ : ∃ shift, shift = 1074 ∧ unitsPerOne = 2 ^ shift :=
    ⟨1074, rfl, by decide +kernel⟩
  obtain ⟨code, hle, hunits⟩ := exists_code fractionBits (m := i.natAbs)
    (by simp only [fractionBits]; omega) shift
  rw [← hone] at hunits
  refine ⟨code, ?_, ?_, hunits⟩
  · simp only [hshift, fractionBits, infinityCode] at hle ⊢
    omega
  · have hround := nearestCode_unitsOfCode fractionBits code
    rw [hunits] at hround
    exact hround

/-- An integer within the bound is not rounded. -/
theorem isInteger_ofRatio (hi : (i.natAbs : Int) ≤ 2 ^ 53) {negative : Bool}
    (hsign : i ≠ 0 → negative = decide (i < 0)) :
    (ofRatio negative (i.natAbs * unitsPerOne) 1).IsInteger i := by
  obtain ⟨code, hfinite, hcode, hunits⟩ := exists_code_integer hi
  have hmin : min (nearestCode fractionBits (i.natAbs * unitsPerOne) 1) infinityCode = code := by
    rw [hcode]
    omega
  constructor
  · simp only [ofRatio, isFinite, hmin, decide_eq_true_eq]
    exact hfinite
  · simp only [ofRatio, signedUnits, isNegative, Number.units, hmin, hunits]
    generalize unitsPerOne = one
    by_cases hzero : i = 0
    · simp [hzero]
    · rw [hsign hzero, Int.natCast_mul]
      by_cases hneg : i < 0
      · have habs : (i.natAbs : Int) = -i := by omega
        rw [if_pos (decide_eq_true hneg), habs, Int.neg_mul, Int.neg_neg]
      · have habs : (i.natAbs : Int) = i := by omega
        simp [hneg, habs]

theorem isInteger_ofInt (hi : (i.natAbs : Int) ≤ 2 ^ 53) : (ofInt i).IsInteger i :=
  isInteger_ofRatio hi fun _ => rfl

/-- The number nearest to the units of an integer, up to the sign of zero. -/
theorem ofUnits_integer (zeroNegative : Bool) (i : Int) :
    ofUnits zeroNegative (i * unitsPerOne)
      = if i = 0 then zero zeroNegative else ofInt i := by
  have hpos : (0 : Int) < unitsPerOne := by
    have := unitsPerOne_pos
    omega
  unfold ofUnits
  by_cases hzero : i = 0
  · rw [hzero, Int.zero_mul, if_pos rfl, if_pos rfl]
  · have hunits : i * (unitsPerOne : Int) ≠ 0 := Int.mul_ne_zero hzero (by omega)
    have hsign : i * (unitsPerOne : Int) < 0 ↔ i < 0 := by
      constructor
      · intro hneg
        by_contra hge
        have := Int.mul_nonneg (by omega : 0 ≤ i) (Int.le_of_lt hpos)
        omega
      · intro hneg
        exact Int.mul_neg_of_neg_of_pos hneg hpos
    rw [if_neg hunits, if_neg hzero, ofInt, Int.natAbs_mul, Int.natAbs_natCast]
    simp only [hsign]

theorem isInteger_zero (negative : Bool) : (zero negative).IsInteger 0 := by
  refine ⟨rfl, ?_⟩
  rw [Int.zero_mul]
  cases negative <;> rfl

theorem isInteger_ofUnits (hi : (i.natAbs : Int) ≤ 2 ^ 53) (zeroNegative : Bool) :
    (ofUnits zeroNegative (i * unitsPerOne)).IsInteger i := by
  rw [ofUnits_integer]
  by_cases hzero : i = 0
  · rw [if_pos hzero, hzero]
    exact isInteger_zero zeroNegative
  · rw [if_neg hzero]
    exact isInteger_ofInt hi

end Exact

/-! ## Comparing and adding integers -/

section Arithmetic

variable {x y : Number} {i j : Int}

/-- The value of a number is read off its place. -/
theorem signedUnits_of_place? {place : Int} (hplace : x.place? = some place) :
    x.signedUnits = if place < 0 then -(unitsOfCode fractionBits place.natAbs : Int)
      else unitsOfCode fractionBits place.natAbs := by
  cases x with
  | nan => cases hplace
  | signed negative code =>
    have hnone : unitsOfCode fractionBits 0 = 0 := by decide
    cases negative with
    | false =>
      obtain rfl : (code.val : Int) = place := by simpa [place?] using hplace
      have hsign : ¬(code.val : Int) < 0 := by omega
      simp [signedUnits, isNegative, units, hsign]
    | true =>
      obtain rfl : -(code.val : Int) = place := by simpa [place?] using hplace
      by_cases hzero : code.val = 0
      · simp [signedUnits, isNegative, units, hzero, hnone]
      · have hsign : -(code.val : Int) < 0 := by omega
        simp only [signedUnits, isNegative, units, hsign, if_true, Int.natAbs_neg,
          Int.natAbs_natCast]

/-- **Finite numbers are ordered by their values.** -/
theorem less_iff_signedUnits (hx : x.isFinite = true) (hy : y.isFinite = true) :
    x.less y = true ↔ x.signedUnits < y.signedUnits := by
  have hplace := place?_of_isFinite hx
  have hplace' := place?_of_isFinite hy
  rw [less_iff (isNaN_of_isFinite hx) (isNaN_of_isFinite hy), hplace, hplace', Option.getD_some,
    Option.getD_some]
  constructor
  · intro hlt
    by_contra hge
    have := placeOfUnits_mono (Int.not_lt.mp hge)
    omega
  · intro hlt
    have hmono := placeOfUnits_mono (Int.le_of_lt hlt)
    -- Numbers at the same place have the same value.
    have hne : placeOfUnits x.signedUnits ≠ placeOfUnits y.signedUnits := by
      intro heq
      rw [← heq] at hplace'
      have hunits := signedUnits_of_place? hplace
      have hunits' := signedUnits_of_place? hplace'
      omega
    omega

theorem equal_iff_signedUnits (hx : x.isFinite = true) (hy : y.isFinite = true) :
    x.equal y = true ↔ x.signedUnits = y.signedUnits := by
  have hless := less_iff_signedUnits hx hy
  have hgreater := less_iff_signedUnits hy hx
  rw [less_iff (isNaN_of_isFinite hx) (isNaN_of_isFinite hy)] at hless
  rw [less_iff (isNaN_of_isFinite hy) (isNaN_of_isFinite hx)] at hgreater
  rw [equal_iff_place (isNaN_of_isFinite hx) (isNaN_of_isFinite hy)]
  omega

namespace IsInteger

variable (hx : x.IsInteger i) (hy : y.IsInteger j)

include hx

theorem isNaN : x.isNaN = false := isNaN_of_isFinite hx.finite

theorem negate : x.negate.IsInteger (-i) where
  finite := by
    rw [isFinite_negate]
    exact hx.finite
  units := by
    rw [signedUnits_negate, hx.units, Int.neg_mul]

include hy

/-- Comparing numbers that are integers is comparing the integers. -/
theorem less_iff : x.less y = true ↔ i < j := by
  have hpos : (0 : Int) < unitsPerOne := by
    have := unitsPerOne_pos
    omega
  rw [less_iff_signedUnits hx.finite hy.finite, hx.units, hy.units]
  exact Int.mul_lt_mul_right hpos

theorem equal_iff : x.equal y = true ↔ i = j := by
  have hpos : (unitsPerOne : Int) ≠ 0 := by
    have := unitsPerOne_pos
    omega
  rw [equal_iff_signedUnits hx.finite hy.finite, hx.units, hy.units]
  exact Int.mul_eq_mul_right_iff hpos

/-- **Sums of integers are exact** as long as they stay within the bound. -/
theorem add (hsum : ((i + j).natAbs : Int) ≤ 2 ^ 53) : (x.add y).IsInteger (i + j) := by
  unfold Number.add
  simp only [hx.isNaN, hy.isNaN, hx.finite, hy.finite, hx.units, hy.units, Bool.or_false,
    Bool.and_true, if_true, Bool.false_eq_true, if_false]
  rw [← Int.add_mul]
  exact isInteger_ofUnits hsum _

theorem sub (hsum : ((i - j).natAbs : Int) ≤ 2 ^ 53) : (x.sub y).IsInteger (i - j) := by
  rw [Int.sub_eq_add_neg] at hsum ⊢
  exact hx.add hy.negate hsum

/-- A sum is the number nearest to it, unless it is the zero of two negative zeros. -/
theorem add_eq (hsign : i + j = 0 → (x.isNegative && y.isNegative) = false) :
    x.add y = ofInt (i + j) := by
  unfold Number.add
  simp only [hx.isNaN, hy.isNaN, hx.finite, hy.finite, hx.units, hy.units, Bool.or_false,
    Bool.and_true, if_true, Bool.false_eq_true, if_false]
  rw [← Int.add_mul, ofUnits_integer]
  by_cases hsum : i + j = 0
  · rw [if_pos hsum, hsign hsum, hsum]
    decide +kernel
  · rw [if_neg hsum]

end IsInteger

/-- **Reading a natural number** off a number is to say which integer it is. -/
theorem toNat?_eq_some_iff {n : Nat} : x.toNat? = some n ↔ x.IsInteger n := by
  have hone := unitsPerOne_pos
  have hzero : ∀ hfinite : x.isFinite = true, x.isZero = true ↔ x.signedUnits = 0 := by
    intro hfinite
    exact equal_iff_signedUnits hfinite rfl
  unfold toNat?
  simp only [Option.ite_none_right_eq_some, Bool.and_eq_true, Bool.or_eq_true, Bool.not_eq_true',
    beq_iff_eq, Option.some.injEq]
  constructor
  · rintro ⟨⟨⟨hfinite, hsign⟩, hwhole⟩, rfl⟩
    refine ⟨hfinite, ?_⟩
    have hunits : x.units / unitsPerOne * unitsPerOne = x.units :=
      Nat.div_mul_cancel (Nat.dvd_of_mod_eq_zero hwhole)
    rw [← Int.natCast_mul, hunits]
    rcases hsign with hpos | hnone
    · rw [signedUnits, hpos]
      rfl
    · have hsum := (hzero hfinite).mp hnone
      unfold signedUnits at hsum ⊢
      split at hsum <;> omega
  · rintro ⟨hfinite, hvalue⟩
    have hnonneg : (0 : Int) ≤ n * unitsPerOne := by
      rw [← Int.natCast_mul]
      exact Int.natCast_nonneg _
    -- A negative sign is possible for zero only.
    have hsign : x.isNegative = false ∨ x.isZero = true := by
      by_cases hneg : x.isNegative = true
      · refine .inr ((hzero hfinite).mpr ?_)
        rw [signedUnits, if_pos hneg] at hvalue ⊢
        omega
      · exact .inl (Bool.not_eq_true _ |>.mp hneg)
    have hunits : x.units = n * unitsPerOne := by
      have : (x.units : Int) = n * unitsPerOne := by
        unfold signedUnits at hvalue
        split at hvalue <;> omega
      exact_mod_cast this
    refine ⟨⟨⟨hfinite, hsign⟩, ?_⟩, ?_⟩
    · rw [hunits, Nat.mul_mod_left]
    · rw [hunits, Nat.mul_div_cancel _ hone]

end Arithmetic

/-! ## Walks over integers -/

/-- Integers from `i` on, each by `d` further than the one before it. -/
def integersFrom (i d : Int) (count : Nat) : List Int :=
  (List.range count).map fun k : Nat => i + k * d

theorem integersFrom_succ (i d : Int) (count : Nat) :
    integersFrom i d (count + 1) = i :: integersFrom (i + d) d count := by
  unfold integersFrom
  rw [List.range_succ_eq_map, List.map_cons, List.map_map]
  congr 1
  · simp
  · apply List.map_congr_left
    intro k _
    simp only [Function.comp_apply, Nat.succ_eq_add_one, Int.natCast_add, Int.add_mul]
    omega

/-- How many integers there are from a place at a distance from the end, both included. -/
def countWithin (gap s : Int) : Nat := (gap / s + 1).toNat

variable {gap s : Int}

theorem countWithin_of_neg (hs : 0 < s) (hgap : gap < 0) : countWithin gap s = 0 := by
  unfold countWithin
  have := Int.ediv_neg_of_neg_of_pos hgap hs
  omega

theorem countWithin_of_nonneg (hs : 0 < s) (hgap : 0 ≤ gap) :
    countWithin gap s = countWithin (gap - s) s + 1 := by
  have hless : (gap - s) / s = gap / s - 1 := by
    rw [Int.sub_ediv_of_dvd gap (Int.dvd_refl s), Int.ediv_self (by omega)]
  have hquotient := Int.ediv_nonneg hgap (Int.le_of_lt hs)
  unfold countWithin
  omega

section Walks

variable {advance : Number → Number} {reaches : Number → Bool} (R : Number → Int → Prop)
  (distance : Int → Int) (d : Int)

/-- **A walk over integers.** Each step goes by `d`, which brings the end nearer by `s`, and the
    walk goes on while the end has not been passed. -/
theorem Walked.forall₂_integersFrom (hs : 0 < s) (hnearer : ∀ i, distance (i + d) = distance i - s)
    (hreaches : ∀ x i, R x i → (reaches x = true ↔ 0 ≤ distance i))
    (hadvance : ∀ x i, R x i → 0 ≤ distance i →
      R (advance x) (i + d) ∧ (advance x).equal x = false)
    {x : Number} {numbers : List Number} (hwalk : Walked advance reaches x numbers) {i : Int}
    (hx : R x i) : List.Forall₂ R numbers (integersFrom i d (countWithin (distance i) s)) := by
  induction hwalk generalizing i with
  | passed hpassed =>
    have hneg : distance i < 0 := by
      have := hreaches _ i hx
      rw [hpassed] at this
      simpa using this
    rw [countWithin_of_neg hs hneg]
    exact .nil
  | absorbed hreached hsame =>
    -- An integer step is never absorbed.
    have hmoves := (hadvance _ i hx ((hreaches _ i hx).mp hreached)).2
    rw [hsame] at hmoves
    cases hmoves
  | step hreached hmoves _ ih =>
    have hinside := (hreaches _ i hx).mp hreached
    rw [countWithin_of_nonneg hs hinside, integersFrom_succ, ← hnearer]
    exact .cons hx (ih (hadvance _ i hx hinside).1)

end Walks

/-! ## Ranges of integers -/

/-- **The integers from `a` towards `b`** in steps of `s`: up to `b` or down to `b`, whichever it
    takes, and none when there is no way to go. -/
def integersTo (a b s : Int) : List Int :=
  if a < b then integersFrom a s (countWithin (b - a) s)
  else if b < a then integersFrom a (-s) (countWithin (a - b) s)
  else []

section IntegersTo

variable {a b : Int}

theorem length_integersTo (hs : 0 < s) (hne : a ≠ b) :
    ((integersTo a b s).length : Int) = (b - a).natAbs / s + 1 := by
  unfold integersTo integersFrom countWithin
  by_cases hup : a < b
  · have habs : ((b - a).natAbs : Int) = b - a := by omega
    have hquotient := Int.ediv_nonneg (by omega : 0 ≤ b - a) (Int.le_of_lt hs)
    rw [if_pos hup, List.length_map, List.length_range, habs]
    omega
  · have hdown : b < a := by omega
    have habs : ((b - a).natAbs : Int) = a - b := by omega
    have hquotient := Int.ediv_nonneg (by omega : 0 ≤ a - b) (Int.le_of_lt hs)
    rw [if_neg hup, if_pos hdown, List.length_map, List.length_range, habs]
    omega

/-- A multiple of the step that is not past the end is reached. -/
theorem exists_lt_countWithin (hs : 0 < s) (hgap : 0 ≤ gap) :
    (∃ k : Nat, k < countWithin gap s ∧ k * s = gap) ↔ s ∣ gap := by
  constructor
  · rintro ⟨k, -, rfl⟩
    exact Int.dvd_mul_left _ _
  · rintro ⟨q, rfl⟩
    have hq : 0 ≤ q := by
      by_contra hneg
      have := Int.mul_neg_of_pos_of_neg hs (Int.not_le.mp hneg)
      omega
    refine ⟨q.toNat, ?_, ?_⟩
    · unfold countWithin
      rw [Int.mul_ediv_cancel_left q (by omega)]
      omega
    · rw [Int.toNat_of_nonneg hq, Int.mul_comm]

theorem mem_integersTo_iff (hs : 0 < s) (hne : a ≠ b) : b ∈ integersTo a b s ↔ s ∣ b - a := by
  unfold integersTo integersFrom
  by_cases hup : a < b
  · rw [if_pos hup, List.mem_map, ← exists_lt_countWithin hs (by omega)]
    simp only [List.mem_range]
    constructor
    · rintro ⟨k, hk, heq⟩
      exact ⟨k, hk, by omega⟩
    · rintro ⟨k, hk, heq⟩
      exact ⟨k, hk, by omega⟩
  · have hswap : s ∣ b - a ↔ s ∣ a - b := by
      rw [← Int.neg_sub, Int.dvd_neg]
    rw [if_neg hup, if_pos (by omega), List.mem_map, hswap, ← exists_lt_countWithin hs (by omega)]
    simp only [List.mem_range, Int.mul_neg]
    constructor
    · rintro ⟨k, hk, heq⟩
      exact ⟨k, hk, by omega⟩
    · rintro ⟨k, hk, heq⟩
      exact ⟨k, hk, by omega⟩

end IntegersTo

section Progressions

variable {a b : Int} {start stop step : Number}

/-- **The walk of a range between integers.** The relation `R` says which number stands for an
    integer, and one step keeps it. -/
theorem forall₂_progression {R : Number → Int → Prop} (hR : ∀ x i, R x i → x.IsInteger i)
    (hstart : R start a) (hstop : stop.IsInteger b) (hstep : step.IsInteger s) (hs : 0 < s)
    (ha : (a.natAbs : Int) + s ≤ 2 ^ 53) (hb : (b.natAbs : Int) + s ≤ 2 ^ 53) (hne : a ≠ b)
    (hadd : ∀ x i, R x i → ((i + s).natAbs : Int) ≤ 2 ^ 53 → R (x.add step) (i + s))
    (hsub : ∀ x i, R x i → ((i - s).natAbs : Int) ≤ 2 ^ 53 → R (x.sub step) (i - s)) :
    List.Forall₂ R (progression start stop step) (integersTo a b s) := by
  have hpos : (zero false).less step = true := ((isInteger_zero false).less_iff hstep).mpr hs
  have hwalk := walked_progression (hR _ _ hstart).isNaN hstop.isNaN hpos hstep.finite
  have hdirection := (hR _ _ hstart).less_iff hstop
  unfold integersTo
  by_cases hup : a < b
  · rw [if_pos hup]
    have hless : start.less stop = true := hdirection.mpr hup
    -- On the way up everything lies between the start and one step past the end.
    have hall := hwalk.forall₂_integersFrom (fun x i => R x i ∧ a ≤ i ∧ i ≤ b + s) (b - ·) s
      hs ?_ ?_ ?_ ⟨hstart, by omega, by omega⟩
    · exact hall.imp fun x i hxi => hxi.1
    · intro i
      omega
    · rintro x i ⟨hx, -, -⟩
      have hbelow := (hR x i hx).less_iff hstop
      have hequal := (hR x i hx).equal_iff hstop
      unfold isInside
      rw [if_pos hless, Bool.or_eq_true, hbelow, hequal]
      omega
    · rintro x i ⟨hx, hlow, hhigh⟩ hinside
      have hnext := hadd x i hx (by omega)
      have hmoved := (hR _ _ hnext).equal_iff (hR x i hx)
      unfold onward
      rw [if_pos hless]
      refine ⟨⟨hnext, by omega, by omega⟩, ?_⟩
      rw [← Bool.not_eq_true, hmoved]
      omega
  · have hdown : b < a := by omega
    rw [if_neg hup, if_pos hdown]
    have hless : ¬start.less stop = true := by
      rw [hdirection]
      exact hup
    have hall := hwalk.forall₂_integersFrom (fun x i => R x i ∧ i ≤ a ∧ b - s ≤ i) (· - b) (-s)
      hs ?_ ?_ ?_ ⟨hstart, by omega, by omega⟩
    · exact hall.imp fun x i hxi => hxi.1
    · intro i
      omega
    · rintro x i ⟨hx, -, -⟩
      have hbelow := (hR x i hx).less_iff hstop
      unfold isInside
      rw [if_neg hless, Bool.not_eq_true', ← Bool.not_eq_true, hbelow]
      omega
    · rintro x i ⟨hx, hhigh, hlow⟩ hinside
      have hnext := hsub x i hx (by omega)
      have hmoved := (hR _ _ hnext).equal_iff (hR x i hx)
      unfold onward
      rw [if_neg hless, ← Int.sub_eq_add_neg]
      refine ⟨⟨hnext, by omega, by omega⟩, ?_⟩
      rw [← Bool.not_eq_true, hmoved]
      omega

/-- The walk when every number is the nearest one to its integer. -/
theorem progression_ofInt (hs : 0 < s) (ha : (a.natAbs : Int) + s ≤ 2 ^ 53)
    (hb : (b.natAbs : Int) + s ≤ 2 ^ 53) (hne : a ≠ b) :
    progression (ofInt a) (ofInt b) (ofInt s) = (integersTo a b s).map ofInt := by
  have hstep : (ofInt s).IsInteger s := isInteger_ofInt (by omega)
  have hall := forall₂_progression (R := fun x i => x = ofInt i ∧ (i.natAbs : Int) ≤ 2 ^ 53)
    (fun x i hx => hx.1 ▸ isInteger_ofInt hx.2) ⟨rfl, by omega⟩ (isInteger_ofInt (by omega)) hstep
    hs ha hb hne ?_ ?_
  · have hsame : List.Forall₂ (· = ofInt ·) (progression (ofInt a) (ofInt b) (ofInt s))
        (integersTo a b s) := hall.imp fun x i hx => hx.1
    rw [← List.forall₂_map_right_iff, List.forall₂_eq_eq_eq] at hsame
    exact hsame
  · rintro x i ⟨rfl, hi⟩ hsum
    refine ⟨(isInteger_ofInt hi).add_eq hstep ?_, hsum⟩
    -- The step is positive.
    intro _
    have hsign : (ofInt s).isNegative = false := decide_eq_false (by omega)
    rw [hsign, Bool.and_false]
  · rintro x i ⟨rfl, hi⟩ hsum
    refine ⟨(isInteger_ofInt hi).add_eq hstep.negate ?_, hsum⟩
    -- What becomes zero on the way down was positive.
    intro hzero
    have hsign : (ofInt i).isNegative = false := decide_eq_false (by omega)
    rw [hsign, Bool.false_and]

end Progressions

end Number

open Number

/-- The list of some numbers, as it is after they were appended one by one. -/
def Datum.ofNumbers (numbers : List Number) : Datum :=
  .list (capacityAfter defaultCapacity 0 numbers.length) (numbers.map .number)

section Ranges

variable {a b s : Int} {start stop z : Number} {step : Datum}

theorem Datum.range_of_isInteger (hstart : start.IsInteger a) (hstop : stop.IsInteger b)
    (hstep : step.StandsForStep z) (hz : z.IsInteger s) (hs : 0 < s) :
    Datum.range (.number start) (.number stop) step
      = Datum.ofNumbers (if a = b then [] else progression start stop z) := by
  have hpos : (zero false).less z = true := ((isInteger_zero false).less_iff hz).mpr hs
  have hequal := hstart.equal_iff hstop
  rw [Datum.range_of_numbers hstep]
  by_cases hab : a = b
  · simp [hpos, hz.finite, hstart.isNaN, hstop.isNaN, hequal.mpr hab, hab, Datum.ofNumbers,
      capacityAfter]
  · have hdiffer : start.equal stop = false := by
      rw [← Bool.not_eq_true, hequal]
      exact hab
    simp [hpos, hz.finite, hstart.isNaN, hstop.isNaN, hdiffer, hab, Datum.ofNumbers,
      Datum.ofProgression]

/-- A number that equals the end is met exactly when the end is among the integers. -/
theorem exists_equal_iff_mem {numbers : List Number} {integers : List Int}
    (hall : List.Forall₂ IsInteger numbers integers) (hstop : stop.IsInteger b) :
    (∃ x ∈ numbers, x.equal stop = true) ↔ b ∈ integers := by
  induction hall with
  | nil => simp
  | cons hx _ ih =>
    rw [List.mem_cons, ← ih, eq_comm, ← hx.equal_iff hstop]
    simp only [List.mem_cons, or_and_right, exists_or, exists_eq_left]

/-- **The range between two integers.** Its numbers are the integers from the start towards the
    end, one step apart, for every number that stands for the start, the end or the step: zero
    may have a sign, and a step of one may be left out. So a range between different integers
    has one number more than there are whole steps between them, and it meets its end exactly
    when the step divides the distance. -/
theorem range_between_integers (a b s : Int) (hs : 1 ≤ s) (ha : (a.natAbs : Int) + s ≤ 2 ^ 53)
    (hb : (b.natAbs : Int) + s ≤ 2 ^ 53) :
    Datum.range (.number (.ofInt a)) (.number (.ofInt b)) (.number (.ofInt s))
        = Datum.ofNumbers ((integersTo a b s).map .ofInt) ∧
      ∀ (start stop z : Number) (step : Datum), start.IsInteger a → stop.IsInteger b →
        step.StandsForStep z → z.IsInteger s →
        ∃ numbers, Datum.range (.number start) (.number stop) step = Datum.ofNumbers numbers ∧
          List.Forall₂ IsInteger numbers (integersTo a b s) ∧
          (a = b → numbers = []) ∧
          (a ≠ b → (numbers.length : Int) = (b - a).natAbs / s + 1 ∧
            ((∃ x ∈ numbers, x.equal stop = true) ↔ s ∣ b - a)) := by
  have hempty : integersTo a a s = [] := by simp [integersTo]
  constructor
  · rw [Datum.range_of_isInteger (isInteger_ofInt (by omega)) (isInteger_ofInt (by omega)) (.inl rfl)
      (isInteger_ofInt (by omega)) (by omega)]
    by_cases hab : a = b
    · rw [if_pos hab, ← hab, hempty, List.map_nil]
    · rw [if_neg hab, progression_ofInt (by omega) ha hb hab]
  · intro start stop z step hstart hstop hstep hz
    rw [Datum.range_of_isInteger hstart hstop hstep hz (by omega)]
    refine ⟨_, rfl, ?_⟩
    by_cases hab : a = b
    · rw [if_pos hab, ← hab, hempty]
      exact ⟨.nil, fun _ => rfl, fun hne => absurd rfl hne⟩
    · rw [if_neg hab]
      have hall : List.Forall₂ IsInteger (progression start stop z) (integersTo a b s) :=
        forall₂_progression (fun _ _ hx => hx) hstart hstop hz (by omega) ha hb hab
          (fun x i hx hsum => hx.add hz hsum) fun x i hx hsum => hx.sub hz hsum
      refine ⟨hall, fun heq => absurd heq hab, fun _ => ⟨?_, ?_⟩⟩
      · rw [hall.length_eq, length_integersTo (by omega) hab]
      · rw [exists_equal_iff_mem hall hstop, mem_integersTo_iff (by omega) hab]

end Ranges

/-- The last step of this range leads to `2 ^ 53`. On the way down from negative zero the end is
    not met. -/
theorem range_between_integers_at_limit :
    Datum.range (.number (.ofInt (2 ^ 53 - 12))) (.number (.ofInt (2 ^ 53 - 3)))
          (.number (.ofInt 3))
        = .list 8 [.number (.ofInt (2 ^ 53 - 12)), .number (.ofInt (2 ^ 53 - 9)),
            .number (.ofInt (2 ^ 53 - 6)), .number (.ofInt (2 ^ 53 - 3))] ∧
      ∃ numbers, Datum.range (.number (.zero true)) (.number (.ofInt (-10))) (.number (.ofInt 4))
          = Datum.ofNumbers numbers ∧
        List.Forall₂ IsInteger numbers [0, -4, -8] ∧
        ¬∃ x ∈ numbers, x.equal (.ofInt (-10)) = true := by
  have hup : integersTo (2 ^ 53 - 12) (2 ^ 53 - 3) 3
      = [2 ^ 53 - 12, 2 ^ 53 - 9, 2 ^ 53 - 6, 2 ^ 53 - 3] := by decide +kernel
  have hdown : integersTo 0 (-10) 4 = [0, -4, -8] := by decide +kernel
  constructor
  · rw [(range_between_integers (2 ^ 53 - 12) (2 ^ 53 - 3) 3 (by decide) (by decide)
      (by decide)).1, hup]
    rfl
  · obtain ⟨numbers, hrange, hall, -, hdiffer⟩ :=
      (range_between_integers 0 (-10) 4 (by decide) (by decide) (by decide)).2 (.zero true)
        (.ofInt (-10)) (.ofInt 4) (.number (.ofInt 4)) (isInteger_zero true)
        (isInteger_ofInt (by decide)) (.inl rfl) (isInteger_ofInt (by decide))
    rw [hdown] at hall
    refine ⟨numbers, hrange, hall, ?_⟩
    rw [(hdiffer (by decide)).2]
    decide

end ValueRuntime
