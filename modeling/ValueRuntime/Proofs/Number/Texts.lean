import Mathlib.Data.List.DropRight
import ValueRuntime.Proofs.Number.Decimals
import ValueRuntime.Proofs.Number.Integers
import ValueRuntime.Proofs.Number.Numerals

/-! # Texts of numbers

    The text of a finite number other than zero is a numeral written out. The numeral stands for
    the nearest decimal with six significant digits, so reading the text gives that decimal and
    nothing is lost by reading it and rounding once more.

    The significant digits of the decimal, without the zeros at their end, appear in the numeral in
    one of three layouts: after zeros behind the point, with the point among them or zeros after
    them, or with the point after the first of them and an exponent. In all three the numeral has
    the same value, and its fraction ends where the significant digits end.
-/

namespace ValueRuntime

/-! ## Digits -/

namespace Number

/-- Digits as text. -/
def digitsText (ds : List ℕ) : Bytes := ds.map digitText

theorem digitText_digit {d : ℕ} (hd : d < 10) :
    Numeral.digitValue (digitText d) = d ∧ Numeral.isDigit (digitText d) = true := by
  have hall : ∀ d < 10, Numeral.digitValue (digitText d) = d ∧
      Numeral.isDigit (digitText d) = true := by decide
  exact hall d hd

theorem digitText_eq_zero_iff {d : ℕ} (hd : d < 10) : digitText d = 0x30 ↔ d = 0 := by
  have hall : ∀ d < 10, digitText d = 0x30 ↔ d = 0 := by decide
  exact hall d hd

theorem isDigit_digitsText {ds : List ℕ} (hds : ∀ d ∈ ds, d < 10) :
    ∀ b ∈ digitsText ds, Numeral.isDigit b = true := by
  intro b hb
  obtain ⟨d, hd, rfl⟩ := List.mem_map.mp hb
  exact (digitText_digit (hds d hd)).2

theorem length_digitsText (ds : List ℕ) : (digitsText ds).length = ds.length := List.length_map _

theorem digitsText_append (ds es : List ℕ) :
    digitsText (ds ++ es) = digitsText ds ++ digitsText es := List.map_append

/-- Zeros at the end multiply by powers of ten. -/
theorem digitsValue_zeros_after (s : Bytes) (k : ℕ) :
    Numeral.digitsValue (s ++ digitsText (List.replicate k 0))
      = Numeral.digitsValue s * 10 ^ k := by
  have hzeros : ∀ k, Numeral.digitsValue (digitsText (List.replicate k 0)) = 0 := by
    intro k
    induction k with
    | zero => rfl
    | succ k ih =>
      rw [List.replicate_succ', digitsText_append, Numeral.digitsValue_append, ih, Nat.zero_mul]
      rfl
  rw [Numeral.digitsValue_append, hzeros, length_digitsText, List.length_replicate, Nat.add_zero]

/-- Zeros at the front change nothing. -/
theorem digitsValue_zeros_before (k : ℕ) (s : Bytes) :
    Numeral.digitsValue (digitsText (List.replicate k 0) ++ s) = Numeral.digitsValue s := by
  have hzeros := digitsValue_zeros_after [] k
  rw [List.nil_append] at hzeros
  rw [Numeral.digitsValue_append, hzeros]
  simp [Numeral.digitsValue]

theorem length_lastDigits (count n : ℕ) : (lastDigits count n).length = count := by
  induction count generalizing n with
  | zero => rfl
  | succ count ih => rw [lastDigits, List.length_append, ih, List.length_singleton]

theorem lt_ten_of_mem_lastDigits {count n d : ℕ} (hd : d ∈ lastDigits count n) : d < 10 := by
  induction count generalizing n with
  | zero => cases hd
  | succ count ih =>
    rw [lastDigits, List.mem_append, List.mem_singleton] at hd
    rcases hd with hmore | rfl
    · exact ih hmore
    · exact Nat.mod_lt _ (by decide)

/-- **The last digits** of a number stand for its remainder. -/
theorem digitsValue_lastDigits (count n : ℕ) :
    Numeral.digitsValue (digitsText (lastDigits count n)) = n % 10 ^ count := by
  induction count generalizing n with
  | zero => rw [Nat.pow_zero, Nat.mod_one]; rfl
  | succ count ih =>
    have hlast : Numeral.digitsValue (digitsText [n % 10]) = n % 10 := by
      have hdigit := (digitText_digit (Nat.mod_lt n (show 0 < 10 by decide))).1
      simp [Numeral.digitsValue, digitsText, hdigit]
    rw [lastDigits, digitsText_append, Numeral.digitsValue_append, ih, hlast, length_digitsText,
      List.length_singleton, Nat.pow_one, Nat.pow_succ', Nat.mod_mul]
    ring

/-- The first one of the last digits. -/
theorem lastDigits_succ (count n : ℕ) :
    lastDigits (count + 1) n = n / 10 ^ count % 10 :: lastDigits count n := by
  induction count generalizing n with
  | zero => simp [lastDigits]
  | succ count ih =>
    rw [lastDigits, ih, List.cons_append, Nat.div_div_eq_div_mul, ← Nat.pow_succ']
    rfl

/-! ## Significant digits -/

namespace Decimal

variable {d : Decimal}

/-- The significant digits are the six digits without some zeros at their end. -/
theorem exists_zeros (d : Decimal) :
    ∃ k, lastDigits precision d.digits = d.significant ++ List.replicate k 0 ∧
      d.significant.length + k = 6 := by
  have hsplit : d.significant ++ (lastDigits precision d.digits).rtakeWhile (· == 0) =
      lastDigits precision d.digits := List.rdropWhile_append_rtakeWhile
  have hzeros : (lastDigits precision d.digits).rtakeWhile (· == 0) =
      List.replicate ((lastDigits precision d.digits).rtakeWhile (· == 0)).length 0 := by
    refine List.eq_replicate_iff.mpr ⟨rfl, fun b hb => ?_⟩
    exact eq_of_beq (List.mem_rtakeWhile_imp (p := (· == 0)) hb)
  have hlength := congrArg List.length hsplit
  rw [List.length_append, length_lastDigits] at hlength
  exact ⟨_, by rw [← hzeros, hsplit], hlength⟩

theorem lt_ten_of_mem_significant {digit : ℕ} (hdigit : digit ∈ d.significant) : digit < 10 := by
  have hfront : d.significant <+: lastDigits precision d.digits := List.rdropWhile_prefix _ _
  exact lt_ten_of_mem_lastDigits (hfront.mem hdigit)

theorem getLast?_significant (d : Decimal) : d.significant.getLast? ≠ some 0 := by
  intro hlast
  have hne : d.significant ≠ [] := by
    intro hnil
    rw [hnil] at hlast
    cases hlast
  rw [List.getLast?_eq_some_getLast hne] at hlast
  have hnot := List.rdropWhile_last_not (· == 0) (lastDigits precision d.digits) hne
  exact hnot (beq_iff_eq.mpr (Option.some.inj hlast))

/-- What the significant digits stand for, the zeros at the end put back. -/
theorem IsFull.digits_eq (hd : d.IsFull) {k : ℕ}
    (hk : lastDigits precision d.digits = d.significant ++ List.replicate k 0) :
    d.digits = Numeral.digitsValue (digitsText d.significant) * 10 ^ k := by
  have hvalue := digitsValue_lastDigits precision d.digits
  rw [hk, digitsText_append, digitsValue_zeros_after] at hvalue
  rw [hvalue]
  exact (Nat.mod_eq_of_lt hd.2).symm

/-- The first significant digit is not zero. -/
theorem IsFull.exists_first (hd : d.IsFull) :
    ∃ first rest, d.significant = first :: rest ∧ first ≠ 0 := by
  obtain ⟨k, hk, -⟩ := d.exists_zeros
  have hfirst : d.digits / 10 ^ 5 % 10 ≠ 0 := by
    obtain ⟨hlow, hhigh⟩ := hd
    omega
  have hcons : lastDigits precision d.digits = d.digits / 10 ^ 5 % 10 :: lastDigits 5 d.digits :=
    lastDigits_succ 5 d.digits
  rw [hcons] at hk
  cases hsignificant : d.significant with
  | nil =>
    -- Zeros alone would begin with a zero.
    rw [hsignificant, List.nil_append] at hk
    have hmem : d.digits / 10 ^ 5 % 10 ∈ List.replicate k 0 := by
      rw [← hk]
      exact List.mem_cons_self
    exact absurd (List.eq_of_mem_replicate hmem) hfirst
  | cons first rest =>
    rw [hsignificant, List.cons_append, List.cons.injEq] at hk
    exact ⟨first, rest, rfl, hk.1 ▸ hfirst⟩

/-- **The value** of a decimal from its significant digits. -/
theorem IsFull.value_eq_significant (hd : d.IsFull) :
    d.value = Numeral.digitsValue (digitsText d.significant)
      * 10 ^ (d.exponent + 1 - d.significant.length) := by
  obtain ⟨k, hk, hlength⟩ := d.exists_zeros
  have hpower : d.exponent + 1 - d.significant.length = k + (d.exponent - 5) := by omega
  rw [value, hd.digits_eq hk, hpower, tenPow_add, Nat.cast_mul, Nat.cast_pow, Nat.cast_ofNat,
    zpow_natCast, mul_assoc]

end Decimal

/-! ## The numeral of a decimal -/

/-- Digits as the fraction of a numeral. Without digits there is no point either. -/
def fraction? (ds : List ℕ) : Option Bytes := if ds.isEmpty then none else some (digitsText ds)

/-- The digits of an exponent, at least two. -/
def exponentDigits (e : ℤ) : Bytes :=
  (if e.natAbs < 10 then utf8 "0" else []) ++ Bytes.decimal e.natAbs

namespace Decimal

variable {d : Decimal}

/-- Whether the text of a decimal has no exponent. -/
def isPositional (d : Decimal) : Bool := -4 ≤ d.exponent && d.exponent < precision

/-- The significant digits with zeros after them up to the place of the point. -/
def padded (d : Decimal) : List ℕ :=
  d.significant ++ List.replicate (d.exponent.toNat + 1 - d.significant.length) 0

/-- The digits before and after the point. -/
def layout (d : Decimal) : List ℕ × List ℕ :=
  if d.isPositional then
    if d.exponent < 0 then ([0], List.replicate (d.exponent.natAbs - 1) 0 ++ d.significant)
    else d.padded.splitAt (d.exponent.toNat + 1)
  else d.significant.splitAt 1

/-- **The numeral** of a decimal. -/
def numeral (negative : Bool) (d : Decimal) : Numeral where
  isNegative := negative
  whole := digitsText d.layout.1
  fraction := fraction? d.layout.2
  exponent := if d.isPositional then none else some (d.exponent < 0, exponentDigits d.exponent)

/-- **What a layout shows** is the significant digits with zeros around them. Zeros stand after
    them only if nothing stands behind the point, and the place of the point accounts for the
    exponent that is not written. -/
theorem IsFull.exists_layout (hd : d.IsFull) : ∃ before after,
    d.layout.1 ++ d.layout.2 =
        List.replicate before 0 ++ (d.significant ++ List.replicate after 0) ∧
      (d.layout.2 ≠ [] → after = 0) ∧
      (if d.isPositional then 0 else d.exponent) + after - d.layout.2.length =
        d.exponent + 1 - d.significant.length := by
  obtain ⟨first, rest, hsignificant, -⟩ := hd.exists_first
  have hlength : 1 ≤ d.significant.length := by
    rw [hsignificant]
    exact Nat.succ_le_succ (Nat.zero_le _)
  unfold layout
  split
  · split
    · next hneg =>
      -- The zero before the point counts among the zeros in front.
      refine ⟨d.exponent.natAbs, 0, ?_, fun _ => rfl, ?_⟩
      · have hzeros : List.replicate d.exponent.natAbs 0 =
            [0] ++ List.replicate (d.exponent.natAbs - 1) 0 := by
          rw [List.singleton_append, ← List.replicate_succ, Nat.sub_add_cancel (by omega)]
        rw [hzeros, List.replicate_zero, List.append_nil, List.append_assoc]
      · rw [List.length_append, List.length_replicate]
        omega
    · next hnonneg =>
      -- Either zeros fill the digits up to the point, or some digits stand behind it.
      rw [List.splitAt_eq]
      refine ⟨0, d.exponent.toNat + 1 - d.significant.length, ?_, ?_, ?_⟩
      · exact List.take_append_drop _ _
      · intro hne
        have hlong := List.length_pos_iff.mpr hne
        rw [List.length_drop, padded, List.length_append, List.length_replicate] at hlong
        omega
      · rw [List.length_drop, padded, List.length_append, List.length_replicate]
        omega
  · -- The exponent that is written moves the point behind the first digit.
    rw [List.splitAt_eq]
    refine ⟨0, 0, ?_, fun _ => rfl, ?_⟩
    · rw [List.replicate_zero, List.nil_append, List.append_nil]
      exact List.take_append_drop _ _
    · rw [List.length_drop]
      omega

theorem IsFull.lt_ten_of_mem_layout (hd : d.IsFull) {digit : ℕ}
    (hdigit : digit ∈ d.layout.1 ∨ digit ∈ d.layout.2) : digit < 10 := by
  obtain ⟨before, after, hlayout, -⟩ := hd.exists_layout
  rw [← List.mem_append, hlayout, List.mem_append, List.mem_append] at hdigit
  rcases hdigit with hbefore | hsignificant | hafter
  · rw [List.eq_of_mem_replicate hbefore]
    decide
  · exact lt_ten_of_mem_significant hsignificant
  · rw [List.eq_of_mem_replicate hafter]
    decide

/-- The fraction does not end with a zero. -/
theorem IsFull.getLast?_fraction (hd : d.IsFull) : d.layout.2.getLast? ≠ some 0 := by
  intro hlast
  obtain ⟨first, rest, hsignificant, -⟩ := hd.exists_first
  obtain ⟨before, after, hlayout, hafter, -⟩ := hd.exists_layout
  have hne : d.layout.2 ≠ [] := by
    intro hnil
    rw [hnil] at hlast
    cases hlast
  -- With digits behind the point, the last digit shown is the last significant one.
  rw [hafter hne, List.replicate_zero, List.append_nil] at hlayout
  have hends := congrArg List.getLast? hlayout
  rw [List.getLast?_append_of_ne_nil _ hne, hlast,
    List.getLast?_append_of_ne_nil _ (by rw [hsignificant]; exact List.cons_ne_nil _ _)] at hends
  exact d.getLast?_significant hends.symm

/-- The digits before the point: one, or as many as the exponent demands. -/
theorem IsFull.length_whole (hd : d.IsFull) :
    d.layout.1.length = if d.isPositional then max 1 (d.exponent + 1).toNat else 1 := by
  obtain ⟨first, rest, hsignificant, -⟩ := hd.exists_first
  unfold layout
  split
  · split
    · rw [List.length_singleton]
      omega
    · rw [List.splitAt_eq, List.length_take, padded, List.length_append, List.length_replicate]
      omega
  · rw [List.splitAt_eq, List.length_take, hsignificant, List.length_cons]
    omega

/-- The digit before the point of a text with an exponent is not zero. -/
theorem IsFull.whole_ne_zero (hd : d.IsFull) (hpositional : d.isPositional = false) :
    digitsText d.layout.1 ≠ [0x30] := by
  obtain ⟨first, rest, hsignificant, hfirst⟩ := hd.exists_first
  have hmem : first ∈ d.significant := by
    rw [hsignificant]
    exact List.mem_cons_self
  rw [layout, hpositional, if_neg Bool.false_ne_true, List.splitAt_eq, hsignificant]
  intro heq
  have hdigit := digitText_eq_zero_iff (lt_ten_of_mem_significant hmem)
  exact hfirst (hdigit.mp (List.head_eq_of_cons_eq heq))

end Decimal

/-! ## The digits of an exponent -/

theorem toUInt8_digit {c : Char} (hc : c.isDigit = true) :
    Numeral.digitValue c.toNat.toUInt8 = c.toNat - '0'.toNat ∧
      Numeral.isDigit c.toNat.toUInt8 = true := by
  have hall : ∀ n < 58, 48 ≤ n → Numeral.digitValue n.toUInt8 = n - 48 ∧
      Numeral.isDigit n.toUInt8 = true := by decide
  obtain ⟨hlow, hhigh⟩ := Char.isDigit_iff_toNat.mp hc
  exact hall c.toNat (Nat.lt_succ_of_le hhigh) hlow

theorem isDigit_decimal {n : ℕ} : ∀ b ∈ Bytes.decimal n, Numeral.isDigit b = true := by
  intro b hb
  obtain ⟨c, hc, rfl⟩ := List.mem_map.mp hb
  exact (toUInt8_digit (Nat.isDigit_of_mem_toDigits (by decide) (by decide) hc)).2

theorem digitsValue_decimal (n : ℕ) : Numeral.digitsValue (Bytes.decimal n) = n := by
  have hchars : ∀ (cs : List Char) (m : ℕ), (∀ c ∈ cs, c.isDigit = true) →
      (cs.map fun c => c.toNat.toUInt8).foldl (fun n b => n * 10 + Numeral.digitValue b) m =
        Nat.ofDigitChars 10 cs m := by
    intro cs
    induction cs with
    | nil => exact fun _ _ => rfl
    | cons c rest ih =>
      intro m hcs
      have hstep :
          m * 10 + Numeral.digitValue c.toNat.toUInt8 = 10 * m + (c.toNat - '0'.toNat) := by
        rw [(toUInt8_digit (hcs c List.mem_cons_self)).1, Nat.mul_comm]
      rw [List.map_cons, List.foldl_cons, hstep, ih _ fun c hc => hcs c (List.mem_cons_of_mem _ hc)]
      rfl
  have hall : ∀ c ∈ Nat.toDigits 10 n, c.isDigit = true := fun c hc =>
    Nat.isDigit_of_mem_toDigits (by decide) (by decide) hc
  exact (hchars _ 0 hall).trans Nat.ofDigitChars_ten_toDigits

theorem length_decimal (n : ℕ) : (Bytes.decimal n).length = (Nat.toDigits 10 n).length :=
  List.length_map _

/-- **The digits of an exponent** stand for its size. -/
theorem digitsValue_exponentDigits (e : ℤ) : Numeral.digitsValue (exponentDigits e) = e.natAbs := by
  unfold exponentDigits
  split
  · have hzero := digitsValue_zeros_before 1 (Bytes.decimal e.natAbs)
    exact hzero.trans (digitsValue_decimal _)
  · exact digitsValue_decimal _

theorem isDigit_exponentDigits (e : ℤ) : ∀ b ∈ exponentDigits e, Numeral.isDigit b = true := by
  intro b hb
  rcases List.mem_append.mp hb with hzero | hdigit
  · split at hzero
    · have hall : (utf8 "0").all Numeral.isDigit = true := by decide
      exact List.all_eq_true.mp hall b hzero
    · cases hzero
  · exact isDigit_decimal b hdigit

/-- There are two digits, or more if the size of the exponent needs them. -/
theorem length_exponentDigits (e : ℤ) :
    2 ≤ (exponentDigits e).length ∧
      (2 < (exponentDigits e).length → 10 ^ ((exponentDigits e).length - 1) ≤ e.natAbs) := by
  have hpos := Nat.length_toDigits_pos (b := 10) (n := e.natAbs)
  have hone := Nat.length_toDigits_le_iff (b := 10) (n := e.natAbs) (k := 1) (by decide) (by decide)
  unfold exponentDigits
  split
  · next hsmall =>
    have hlength : (utf8 "0" ++ Bytes.decimal e.natAbs).length = 2 := by
      have hsingle : (utf8 "0").length = 1 := rfl
      have := hone.mpr hsmall
      rw [List.length_append, length_decimal]
      omega
    rw [hlength]
    exact ⟨Nat.le_refl 2, fun hmore => absurd hmore (Nat.lt_irrefl 2)⟩
  · next hlarge =>
    rw [List.nil_append, length_decimal]
    have htwo : ¬(Nat.toDigits 10 e.natAbs).length ≤ 1 := fun hle => hlarge (hone.mp hle)
    refine ⟨by omega, fun _ => ?_⟩
    have hfewer := Nat.length_toDigits_le_iff (b := 10) (n := e.natAbs)
      (k := (Nat.toDigits 10 e.natAbs).length - 1) (by decide) (by omega)
    by_contra hlt
    have := hfewer.mpr (Nat.lt_of_not_le hlt)
    omega

/-! ## What the numeral stands for -/

theorem getD_fraction? (ds : List ℕ) : (fraction? ds).getD [] = digitsText ds := by
  cases ds <;> rfl

theorem getLast?_digitsText {ds : List ℕ} (hds : ∀ d ∈ ds, d < 10) (hlast : ds.getLast? ≠ some 0) :
    (digitsText ds).getLast? ≠ some 0x30 := by
  intro heq
  rw [digitsText, List.getLast?_map, Option.map_eq_some_iff] at heq
  obtain ⟨d, hd, htext⟩ := heq
  rw [(digitText_eq_zero_iff (hds d (List.mem_of_getLast? hd))).mp htext] at hd
  exact hlast hd

namespace Decimal

variable {d : Decimal} (negative : Bool)

theorem power_numeral (d : Decimal) :
    (d.numeral negative).power = if d.isPositional then 0 else d.exponent := by
  unfold Numeral.power numeral
  cases d.isPositional with
  | true => rfl
  | false =>
    simp only [Bool.false_eq_true, if_false, digitsValue_exponentDigits, decide_eq_true_eq]
    split <;> omega

theorem exponent_numeral {e : Bool × Bytes} (he : (d.numeral negative).exponent = some e) :
    d.isPositional = false ∧ e = (decide (d.exponent < 0), exponentDigits d.exponent) := by
  simp only [numeral, Option.ite_none_left_eq_some, Option.some.injEq, Bool.not_eq_true] at he
  exact ⟨he.1, he.2.symm⟩

/-- **The numeral stands for the decimal,** whatever its layout. -/
theorem IsFull.exactValue_numeral (hd : d.IsFull) :
    (d.numeral negative).exactValue = if negative then -d.value else d.value := by
  obtain ⟨before, after, hlayout, -, hpower⟩ := hd.exists_layout
  have hdigits : Numeral.digitsValue ((d.numeral negative).whole ++
      (d.numeral negative).fraction.getD []) =
        Numeral.digitsValue (digitsText d.significant) * 10 ^ after := by
    show Numeral.digitsValue (digitsText d.layout.1 ++ (fraction? d.layout.2).getD []) = _
    rw [getD_fraction?, ← digitsText_append, hlayout, digitsText_append, digitsText_append,
      digitsValue_zeros_before, digitsValue_zeros_after]
  have hlength : ((d.numeral negative).fraction.getD []).length = d.layout.2.length := by
    show ((fraction? d.layout.2).getD []).length = _
    rw [getD_fraction?, length_digitsText]
  -- The zeros after the significant digits count as powers of ten.
  have hshift : (10 : ℚ) ^ after * 10 ^ ((d.numeral negative).power - d.layout.2.length) =
      10 ^ (d.exponent + 1 - d.significant.length) := by
    rw [← hpower, power_numeral, ← zpow_natCast, ← tenPow_add]
    congr 1
    ring
  rw [Numeral.exactValue, hdigits, hlength, Nat.cast_mul, Nat.cast_pow, Nat.cast_ofNat, mul_assoc,
    mul_assoc, hshift, ← hd.value_eq_significant]
  show (if negative then (-1 : ℚ) else 1) * d.value = _
  cases negative with
  | true => exact neg_one_mul _
  | false => exact one_mul _

theorem IsFull.isProper_numeral (hd : d.IsFull) : (d.numeral negative).IsProper where
  whole_ne_nil := by
    have hlength := hd.length_whole
    intro hnil
    have hzero : (digitsText d.layout.1).length = 0 := congrArg List.length hnil
    rw [length_digitsText, hlength] at hzero
    split at hzero <;> omega
  whole := isDigit_digitsText fun _ hdigit => hd.lt_ten_of_mem_layout (.inl hdigit)
  fraction := by
    show ∀ b ∈ (fraction? d.layout.2).getD [], _
    rw [getD_fraction?]
    exact isDigit_digitsText fun _ hdigit => hd.lt_ten_of_mem_layout (.inr hdigit)
  exponent_ne_nil := by
    intro e he
    obtain ⟨-, rfl⟩ := exponent_numeral negative he
    exact List.ne_nil_of_length_pos (Nat.lt_of_lt_of_le Nat.two_pos (length_exponentDigits _).1)
  exponent := by
    intro e he
    obtain ⟨-, rfl⟩ := exponent_numeral negative he
    exact isDigit_exponentDigits d.exponent

/-- The text of a decimal is its numeral written out. -/
theorem text_eq_written (d : Decimal) :
    (if negative then utf8 "-" else []) ++ d.text = (d.numeral negative).written := by
  have hfraction : ∀ ds, fraction ds = (fraction? ds).elim [] (utf8 "." ++ ·) := by
    intro ds
    cases ds <;> rfl
  have hexponent : ∀ e : ℤ, exponentText e =
      utf8 (if decide (e < 0) = true then "e-" else "e+") ++ exponentDigits e := by
    intro e
    simp only [exponentText, exponentDigits, decide_eq_true_eq, List.append_assoc]
  have hwritten : (d.numeral negative).written = (if negative then utf8 "-" else []) ++
      (digitsText d.layout.1 ++ (fraction d.layout.2 ++
        (if d.isPositional then [] else exponentText d.exponent))) := by
    rw [hfraction, hexponent]
    unfold Numeral.written Numeral.exponentText Numeral.fractionText numeral
    cases d.isPositional <;> rfl
  rw [hwritten]
  congr 1
  unfold text layout
  show (if d.isPositional = true then _ else _) = _
  split
  · rw [List.append_nil]
    unfold positional
    split
    · rfl
    · rw [List.splitAt_eq]
      rfl
  · rw [List.splitAt_eq]
    exact List.append_assoc _ _ _

end Decimal

end Number

/-! ## The text of a number -/

/-- **The layout** of a numeral whose value has the decimal exponent `e`. -/
structure Numeral.IsLaidOut (x : Numeral) (e : ℤ) : Prop where
  /-- Digits follow the point, and the last one is not zero. -/
  fraction : ∀ ds, x.fraction = some ds → ds ≠ [] ∧ ds.getLast? ≠ some 0x30
  /-- An exponent is written unless the value is near to one. -/
  positional : x.exponent = none ↔ -4 ≤ e ∧ e < 6
  /-- Without an exponent, there are no more digits before the point than the value has. -/
  whole : x.exponent = none → x.whole.length = max 1 (e + 1).toNat
  /-- With an exponent, there is one digit before the point, and it is not zero. The exponent is
      that of the value and has two digits, or more if it needs them. -/
  scientific : ∀ negative ds, x.exponent = some (negative, ds) →
    x.whole.length = 1 ∧ x.whole ≠ [0x30] ∧ (negative = true ↔ e < 0) ∧ x.power = e ∧
      2 ≤ ds.length ∧ (2 < ds.length → 10 ^ (ds.length - 1) ≤ e.natAbs)

theorem Number.Decimal.IsFull.isLaidOut_numeral {d : Decimal} (hd : d.IsFull) (negative : Bool) :
    (d.numeral negative).IsLaidOut d.exponent where
  fraction := by
    intro ds hds
    have hfraction : fraction? d.layout.2 = some ds := hds
    simp only [fraction?, Option.ite_none_left_eq_some, List.isEmpty_iff, Option.some.injEq]
      at hfraction
    obtain ⟨hne, rfl⟩ := hfraction
    refine ⟨fun hnil => hne (List.map_eq_nil_iff.mp hnil), ?_⟩
    exact getLast?_digitsText (fun _ hdigit => hd.lt_ten_of_mem_layout (.inr hdigit))
      hd.getLast?_fraction
  positional := by
    have hpositional : d.isPositional = true ↔ -4 ≤ d.exponent ∧ d.exponent < 6 := by
      simp only [isPositional, Bool.and_eq_true, decide_eq_true_eq]
      rfl
    rw [← hpositional]
    simp [numeral]
  whole := by
    intro hnone
    have hpositional : d.isPositional = true := by simpa [numeral] using hnone
    have hlength := hd.length_whole
    rw [hpositional] at hlength
    exact (length_digitsText _).trans hlength
  scientific := by
    intro sign ds he
    obtain ⟨hpositional, heq⟩ := exponent_numeral negative he
    cases heq
    have hlength := hd.length_whole
    have hpower := power_numeral negative d
    rw [hpositional] at hlength hpower
    obtain ⟨htwo, hmore⟩ := length_exponentDigits d.exponent
    exact ⟨(length_digitsText _).trans hlength, hd.whole_ne_zero hpositional,
      decide_eq_true_iff, hpower, htwo, hmore⟩

namespace Number

/-- **The exact value** of a finite number. -/
def value (x : Number) : ℚ := x.signedUnits / unitsPerOne

variable {x : Number}

theorem abs_value (x : Number) : |x.value| = x.units / unitsPerOne := by
  have hsigned : |(x.signedUnits : ℚ)| = x.units := by
    unfold signedUnits
    split <;> simp
  rw [value, abs_div, hsigned, Nat.abs_cast]

theorem value_ne_zero_iff : x.value ≠ 0 ↔ x.units ≠ 0 := by
  rw [← abs_ne_zero, abs_value, div_ne_zero_iff, Nat.cast_ne_zero, Nat.cast_ne_zero]
  exact and_iff_left (Nat.ne_of_gt unitsPerOne_pos)

theorem value_neg_iff (hunits : x.units ≠ 0) : x.value < 0 ↔ x.isNegative = true := by
  have hone : (0 : ℚ) < unitsPerOne := Nat.cast_pos.mpr unitsPerOne_pos
  rw [value, div_lt_iff₀ hone, zero_mul, Int.cast_lt_zero, signedUnits]
  cases x.isNegative with
  | true =>
    show -(x.units : ℤ) < 0 ↔ true = true
    exact iff_of_true (by omega) rfl
  | false =>
    show (x.units : ℤ) < 0 ↔ false = true
    exact iff_of_false (by omega) Bool.false_ne_true

theorem unitsOfCode_lt {p k code : ℕ} (hcode : code / 2 ^ p ≤ k + 1) :
    unitsOfCode p code < 2 ^ (p + 1) * 2 ^ k := by
  have hpos := Nat.two_pow_pos p
  unfold unitsOfCode
  show (if code < 2 ^ p then code else (2 ^ p + code % 2 ^ p) * 2 ^ (code / 2 ^ p - 1)) < _
  split
  · next hsmall =>
    calc code < 2 ^ (p + 1) := hsmall.trans (Nat.pow_lt_pow_succ Nat.one_lt_two)
      _ ≤ 2 ^ (p + 1) * 2 ^ k := Nat.le_mul_of_pos_right _ (Nat.two_pow_pos k)
  · refine Nat.mul_lt_mul_of_lt_of_le ?_ ?_ (Nat.two_pow_pos _)
    · have hrest := Nat.mod_lt code hpos
      rw [Nat.pow_succ]
      omega
    · exact Nat.pow_le_pow_right Nat.two_pos (by omega)

/-- A finite number is not too large for its decimal exponent to be found. -/
theorem units_lt_of_isFinite (hx : x.isFinite = true) : x.units < unitsPerOne * 10 ^ 400 := by
  have hlimit : 2 ^ (fractionBits + 1) * 2 ^ 2045 ≤ unitsPerOne * 10 ^ 400 := by decide +kernel
  cases x with
  | nan => cases hx
  | signed negative code =>
    have hcode : code.val < 2047 * 2 ^ 52 := of_decide_eq_true hx
    have hdiv : code.val / 2 ^ fractionBits ≤ 2045 + 1 := by
      show code.val / 2 ^ 52 ≤ 2045 + 1
      omega
    exact Nat.lt_of_lt_of_le (unitsOfCode_lt hdiv) hlimit

/-- **Six digits are found** for every finite number but zero. -/
theorem isNearest_units (hx : x.isFinite = true) (hunits : x.units ≠ 0) :
    (Decimal.nearest x.units unitsPerOne).IsNearest |x.value| := by
  have hreach : unitsPerOne ≤ 1 * 10 ^ 400 := by decide +kernel
  rw [abs_value]
  refine Decimal.isNearest_nearest unitsPerOne_pos ?_ (units_lt_of_isFinite hx)
  exact hreach.trans (Nat.mul_le_mul_right _ (Nat.one_le_iff_ne_zero.mpr hunits))

/-- The text of a finite number other than zero is that of its nearest decimal. -/
theorem text_eq_written (hx : x.isFinite = true) (hunits : x.units ≠ 0) :
    x.text = ((Decimal.nearest x.units unitsPerOne).numeral x.isNegative).written := by
  have hmagnitude : x.magnitudeText = (Decimal.nearest x.units unitsPerOne).text := by
    rw [magnitudeText, hx, Bool.not_true, if_neg Bool.false_ne_true, if_neg hunits]
  rw [← Decimal.text_eq_written, text, isNaN_of_isFinite hx, if_neg Bool.false_ne_true, hmagnitude]

end Number

/-- **The text of a number.** For every finite number other than zero there is one nearest decimal
    with six significant digits. The text is a numeral for that decimal with the sign of the
    number, in the layout that the decimal exponent demands. Reading the text gives the numeral,
    and rounding its exact value to six digits gives the decimal again. -/
theorem text_is_nearest_decimal (x : Number) (hx : x.isFinite = true) (hvalue : x.value ≠ 0) :
    ∃ (d : Number.Decimal) (numeral : Numeral),
      (∀ d' : Number.Decimal, d'.IsNearest |x.value| ↔ d' = d) ∧
      x.text = numeral.written ∧ Numeral.ofText? x.text = some numeral ∧
      (numeral.isNegative = true ↔ x.value < 0) ∧
      numeral.exactValue = (if x.value < 0 then -d.value else d.value) ∧
      numeral.IsLaidOut d.exponent ∧
      ∀ d' : Number.Decimal, d'.IsNearest |numeral.exactValue| ↔ d' = d := by
  have hunits := Number.value_ne_zero_iff.mp hvalue
  have hsign := Number.value_neg_iff hunits
  have hnearest := Number.isNearest_units hx hunits
  have honly : ∀ {d : Number.Decimal} {q : ℚ}, d.IsNearest q → ∀ d', d'.IsNearest q ↔ d' = d := by
    intro d q hd d'
    exact ⟨fun hd' => hd'.unique hd, fun heq => heq ▸ hd⟩
  have hfull := hnearest.full
  have hexact := hfull.exactValue_numeral x.isNegative
  have htext := Number.text_eq_written hx hunits
  generalize Number.Decimal.nearest x.units Number.unitsPerOne = d at hnearest hfull hexact htext
  refine ⟨d, d.numeral x.isNegative, honly hnearest, htext, ?_, hsign.symm, ?_,
    hfull.isLaidOut_numeral _, ?_⟩
  · rw [htext]
    exact (hfull.isProper_numeral _).ofText?_written
  · rw [hexact]
    exact if_congr hsign.symm rfl rfl
  · have habs : |(d.numeral x.isNegative).exactValue| = d.value := by
      have hpos : 0 ≤ d.value := by
        unfold Number.Decimal.value
        positivity
      rw [hexact]
      split
      · rw [abs_neg, abs_of_nonneg hpos]
      · exact abs_of_nonneg hpos
    rw [habs]
    exact honly hfull.isNearest_value

/-- The number `-999999.5` lies half-way between two decimals. The even one is `-1000000`, whose
    exponent is too large for a positional text. -/
theorem text_of_half_below_million :
    (Number.ofBits 0xc12e847f00000000).isFinite = true ∧
      (Number.ofBits 0xc12e847f00000000).value ≠ 0 ∧
      (Number.ofBits 0xc12e847f00000000).text = utf8 "-1e+06" ∧
      (∀ d : Number.Decimal,
        d.IsNearest |(Number.ofBits 0xc12e847f00000000).value| ↔ d = ⟨100000, 6⟩) ∧
      ∃ numeral, Numeral.ofText? (utf8 "-1e+06") = some numeral ∧
        numeral.exactValue = -(Number.Decimal.mk 100000 6).value ∧ numeral.IsLaidOut 6 := by
  have hfinite : (Number.ofBits 0xc12e847f00000000).isFinite = true := by decide
  have hunits : (Number.ofBits 0xc12e847f00000000).units ≠ 0 := by decide +kernel
  have hvalue := Number.value_ne_zero_iff.mpr hunits
  have htext : (Number.ofBits 0xc12e847f00000000).text = utf8 "-1e+06" := by decide +kernel
  have hneg : (Number.ofBits 0xc12e847f00000000).value < 0 :=
    (Number.value_neg_iff hunits).mpr (by decide)
  have hdecimal : Number.Decimal.nearest (Number.ofBits 0xc12e847f00000000).units
      Number.unitsPerOne = ⟨100000, 6⟩ := by decide +kernel
  obtain ⟨d, numeral, honly, -, hread, -, hexact, hlayout, -⟩ :=
    text_is_nearest_decimal (Number.ofBits 0xc12e847f00000000) hfinite hvalue
  have hd : (⟨100000, 6⟩ : Number.Decimal) = d :=
    (honly _).mp (hdecimal ▸ Number.isNearest_units hfinite hunits)
  subst hd
  rw [htext] at hread
  rw [if_pos hneg] at hexact
  exact ⟨hfinite, hvalue, htext, honly, numeral, hread, hexact, hlayout⟩

end ValueRuntime
