import Mathlib.Algebra.Field.Rat
import Mathlib.Data.List.TakeDrop
import Mathlib.Tactic.Ring
import ValueRuntime.Number.Numeral

/-! # Reading numerals

    A numeral stands for an exact value: its digits as an integer, times a power of ten that the
    digits after the point and the exponent decide. A numeral that consists of digits can be
    written out, and reading the text gives the numeral back.
-/

namespace ValueRuntime.Numeral

/-! ## The exact value -/

/-- The natural number that decimal digits stand for. -/
def digitsValue (s : Bytes) : ℕ := s.foldl (fun n b => n * 10 + digitValue b) 0

theorem foldl_digits (s : Bytes) (n : ℕ) :
    s.foldl (fun n b => n * 10 + digitValue b) n = n * 10 ^ s.length + digitsValue s := by
  induction s generalizing n with
  | nil => simp [digitsValue]
  | cons b rest ih =>
    unfold digitsValue
    rw [List.foldl_cons, List.foldl_cons, ih, ih (0 * 10 + digitValue b), List.length_cons]
    ring

theorem digitsValue_append (s t : Bytes) :
    digitsValue (s ++ t) = digitsValue s * 10 ^ t.length + digitsValue t := by
  rw [digitsValue, List.foldl_append, foldl_digits]
  rfl

/-- The exponent that is written, zero if there is none. -/
def power (x : Numeral) : ℤ :=
  match x.exponent with
  | none => 0
  | some (negative, digits) => if negative then -(digitsValue digits : ℤ) else digitsValue digits

/-- **The exact value** of a numeral. -/
def exactValue (x : Numeral) : ℚ :=
  (if x.isNegative then -1 else 1) * digitsValue (x.whole ++ x.fraction.getD [])
    * 10 ^ (x.power - (x.fraction.getD []).length)

/-! ## Writing and reading -/

/-- The digits after the point, with the point. -/
def fractionText (x : Numeral) : Bytes := x.fraction.elim [] (utf8 "." ++ ·)

/-- The exponent with its mark and sign. -/
def exponentText (x : Numeral) : Bytes :=
  x.exponent.elim [] fun e => utf8 (if e.1 then "e-" else "e+") ++ e.2

/-- **A numeral written out.** A sign is written if it is a minus. -/
def written (x : Numeral) : Bytes :=
  (if x.isNegative then utf8 "-" else []) ++ (x.whole ++ (x.fractionText ++ x.exponentText))

/-- A numeral that consists of digits, at least one before the point and one in an exponent. -/
structure IsProper (x : Numeral) : Prop where
  whole_ne_nil : x.whole ≠ []
  whole : ∀ b ∈ x.whole, isDigit b = true
  fraction : ∀ b ∈ x.fraction.getD [], isDigit b = true
  exponent_ne_nil : ∀ e, x.exponent = some e → e.2 ≠ []
  exponent : ∀ e, x.exponent = some e → ∀ b ∈ e.2, isDigit b = true

theorem isBlank_of_isDigit {b : UInt8} (hb : isDigit b = true) : isBlank b = false := by
  simp only [isDigit, Bool.and_eq_true, decide_eq_true_eq, UInt8.le_iff_toNat_le] at hb
  simp only [isBlank, Bool.or_eq_false_iff, Bool.and_eq_false_iff, beq_eq_false_iff_ne,
    decide_eq_false_iff_not, UInt8.le_iff_toNat_le, ne_eq, ← UInt8.toNat_inj]
  have h20 : (0x20 : UInt8).toNat = 32 := rfl
  have h30 : (0x30 : UInt8).toNat = 48 := rfl
  have h0d : (0x0d : UInt8).toNat = 13 := rfl
  omega

theorem trim_of_forall {s : Bytes} (hs : ∀ b ∈ s, isBlank b = false) : trim s = s := by
  have hdrop : ∀ t : Bytes, (∀ b ∈ t, isBlank b = false) → t.dropWhile isBlank = t := by
    intro t ht
    cases t with
    | nil => rfl
    | cons b rest =>
      have hb := ht b List.mem_cons_self
      rw [List.dropWhile_cons, hb]
      rfl
  unfold trim
  rw [hdrop s hs, hdrop s.reverse fun b hb => hs b (List.mem_reverse.mp hb), List.reverse_reverse]

/-- Digits are read up to the first byte that is none. -/
theorem span_digits {ds rest : Bytes} (hds : ∀ b ∈ ds, isDigit b = true)
    (hrest : ∀ b, rest.head? = some b → isDigit b = false) :
    (ds ++ rest).span isDigit = (ds, rest) := by
  have hstop : rest.takeWhile isDigit = [] ∧ rest.dropWhile isDigit = rest := by
    cases rest with
    | nil => exact ⟨rfl, rfl⟩
    | cons b more =>
      have hb := hrest b rfl
      simp [hb]
  rw [List.span_eq_takeWhile_dropWhile, List.takeWhile_append_of_pos hds,
    List.dropWhile_append_of_pos hds, hstop.1, hstop.2, List.append_nil]

theorem sign_digits {ds rest : Bytes} (hne : ds ≠ []) (hds : ∀ b ∈ ds, isDigit b = true) :
    sign (ds ++ rest) = (false, ds ++ rest) := by
  obtain ⟨b, more, rfl⟩ := List.exists_cons_of_ne_nil hne
  have hb := hds b List.mem_cons_self
  show sign (b :: (more ++ rest)) = _
  unfold sign
  split
  · next heq =>
    cases heq
    cases hb
  · next heq =>
    cases heq
    cases hb
  · rfl

theorem head?_exponentText {x : Numeral} {b : UInt8} (hb : x.exponentText.head? = some b) :
    b = 0x65 := by
  unfold exponentText at hb
  cases he : x.exponent with
  | none =>
    rw [he] at hb
    cases hb
  | some e =>
    rw [he] at hb
    obtain ⟨negative, digits⟩ := e
    cases negative <;> exact (Option.some.inj hb).symm

namespace IsProper

variable {x : Numeral} (hx : x.IsProper)

include hx

theorem isBlank_written : ∀ b ∈ x.written, isBlank b = false := by
  have hclear : ∀ s : Bytes, s.any isBlank = false → ∀ b ∈ s, isBlank b = false := by
    intro s hs b hb
    exact Bool.eq_false_iff.mpr (List.any_eq_false.mp hs b hb)
  have hmarks : ∀ negative : Bool,
      (utf8 (if negative then "e-" else "e+")).any isBlank = false := by decide
  intro b hb
  simp only [written, List.mem_append] at hb
  rcases hb with hsign | hwhole | hfraction | hexponent
  · split at hsign
    · exact hclear _ (by decide) b hsign
    · cases hsign
  · exact isBlank_of_isDigit (hx.whole b hwhole)
  · unfold fractionText at hfraction
    cases hf : x.fraction with
    | none =>
      rw [hf] at hfraction
      cases hfraction
    | some digits =>
      rw [hf] at hfraction
      rcases List.mem_append.mp hfraction with hfirst | hdigit
      · exact hclear (utf8 ".") (by decide) b hfirst
      · exact isBlank_of_isDigit (hx.fraction b (by rw [hf]; exact hdigit))
  · unfold exponentText at hexponent
    cases he : x.exponent with
    | none =>
      rw [he] at hexponent
      cases hexponent
    | some e =>
      rw [he] at hexponent
      rcases List.mem_append.mp hexponent with hmark | hdigit
      · exact hclear _ (hmarks e.1) b hmark
      · exact isBlank_of_isDigit (hx.exponent e he b hdigit)

theorem sign_written :
    sign x.written = (x.isNegative, x.whole ++ (x.fractionText ++ x.exponentText)) := by
  unfold written
  cases x.isNegative with
  | true => rfl
  | false =>
    show sign (x.whole ++ _) = _
    exact sign_digits hx.whole_ne_nil hx.whole

/-- Reading an exponent gives it back. -/
theorem exponent?_exponentText : exponent? x.exponentText = some x.exponent := by
  unfold exponentText
  cases he : x.exponent with
  | none => rfl
  | some e =>
    obtain ⟨negative, digits⟩ := e
    have hsign : ∀ c : UInt8, c = 0x2d ∨ c = 0x2b → sign (c :: digits) = (c == 0x2d, digits) := by
      rintro c (rfl | rfl) <;> rfl
    have hne : digits.isEmpty = false := by
      rw [List.isEmpty_eq_false_iff]
      exact hx.exponent_ne_nil _ he
    have hall : digits.all isDigit = true := List.all_eq_true.mpr (hx.exponent _ he)
    cases negative with
    | true =>
      show exponent? (0x65 :: 0x2d :: digits) = _
      simp [exponent?, hsign, hne, hall]
    | false =>
      show exponent? (0x65 :: 0x2b :: digits) = _
      simp [exponent?, hsign, hne, hall]

/-- **Reading a numeral that was written gives it back.** -/
theorem ofText?_written : ofText? x.written = some x := by
  have hmark : ∀ b, x.exponentText.head? = some b → isDigit b = false := by
    intro b hb
    rw [head?_exponentText hb]
    rfl
  have hwhole : x.whole.isEmpty = false := by
    rw [List.isEmpty_eq_false_iff]
    exact hx.whole_ne_nil
  unfold ofText?
  rw [trim_of_forall hx.isBlank_written, hx.sign_written]
  cases hf : x.fraction with
  | none =>
    have htext : x.fractionText = [] := by rw [fractionText, hf]; rfl
    rw [htext, List.nil_append]
    simp only [span_digits hx.whole hmark, hwhole, Bool.false_and, Bool.false_eq_true, if_false]
    have hexponent := hx.exponent?_exponentText
    cases htail : x.exponentText with
    | nil =>
      rw [htail] at hexponent
      simp only [hexponent, ← hf]
      rfl
    | cons b rest =>
      -- The exponent begins with its mark, which is not a point.
      have hb : b = 0x65 := head?_exponentText (by rw [htail]; rfl)
      rw [htail] at hexponent
      subst hb
      show (exponent? (0x65 :: rest)).bind
        (fun e => some (Numeral.mk x.isNegative x.whole none e)) = some x
      rw [hexponent, ← hf]
      rfl
  | some digits =>
    have htext : x.fractionText = 0x2e :: digits := by rw [fractionText, hf]; rfl
    have hdigits : ∀ b ∈ digits, isDigit b = true := by
      intro b hb
      exact hx.fraction b (by rw [hf]; exact hb)
    have hpoint : ∀ b, (0x2e :: (digits ++ x.exponentText)).head? = some b → isDigit b = false := by
      intro b hb
      cases hb
      rfl
    rw [htext, List.cons_append]
    simp only [span_digits hx.whole hpoint, span_digits hdigits hmark, hx.exponent?_exponentText,
      hwhole, Bool.false_and, Bool.false_eq_true, if_false, ← hf]
    rfl

end IsProper

end ValueRuntime.Numeral
