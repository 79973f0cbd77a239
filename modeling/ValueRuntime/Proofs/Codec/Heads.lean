import ValueRuntime.Codec.Item
import ValueRuntime.Proofs.Results

/-! # Heads read back

    What was written for the head of an item is read as that head, whatever follows it. The
    argument of a head takes one of five widths, and a float one of three; in each of them
    nothing of it is lost.
-/

namespace ValueRuntime

/-- Numbers below this have a head. -/
def Codec.argumentLimit : Nat := 0x10000000000000000

/-! ## Numbers as bytes -/

namespace Bytes

theorem toNat_append_byte (s : Bytes) (b : UInt8) :
    toNat (s ++ [b]) = toNat s * 256 + b.toNat := by
  unfold toNat
  rw [List.foldl_append]
  rfl

@[simp] theorem length_bigEndian (width n : Nat) : (bigEndian width n).length = width := by
  induction width generalizing n with
  | zero => rfl
  | succ width ih => rw [bigEndian, List.length_append, ih, List.length_singleton]

/-- The last bytes of a number, read as a number. -/
theorem toNat_bigEndian (width n : Nat) : toNat (bigEndian width n) = n % Nat.pow 256 width := by
  induction width generalizing n with
  | zero => exact (Nat.mod_one n).symm
  | succ width ih =>
    have hlast : (n % 256).toUInt8.toNat = n % 256 := by
      rw [Nat.toUInt8, UInt8.toNat_ofNat']
      omega
    have hpower : Nat.pow 256 (width + 1) = 256 * Nat.pow 256 width := Nat.pow_succ'
    rw [bigEndian, toNat_append_byte, ih, hlast, hpower, Nat.mod_mul]
    omega

end Bytes

/-! ## Bit patterns -/

namespace Number

/-- A bit pattern counts only up to its sign bit. -/
theorem Format.widen_mod (f : Format) (bits : Nat) :
    f.widen (bits % (f.signWeight * 2)) = f.widen bits := by
  have hsign : bits % (f.signWeight * 2) / f.signWeight % 2 = bits / f.signWeight % 2 := by
    rw [Nat.mod_mul_right_div_self, Nat.mod_mod]
  have hcode : bits % (f.signWeight * 2) % f.signWeight = bits % f.signWeight :=
    Nat.mod_mul_right_mod bits f.signWeight 2
  unfold Format.widen
  rw [hsign, hcode]

theorem Format.widen_of_narrow? {f : Format} {x : Number} {bits : Nat}
    (hbits : f.narrow? x = some bits) : f.widen bits = x := by
  simp only [Format.narrow?] at hbits
  split at hbits
  · next hwiden =>
    cases hbits
    exact hwiden
  · cases hbits

/-- A bit pattern is read as the number it was written for. -/
theorem ofBits_toBits (x : Number) : ofBits (toBits x) = x := by
  cases x with
  | nan => decide
  | signed negative code =>
    obtain ⟨code, hcode⟩ := code
    have hlt : code < signWeight := Nat.lt_of_lt_of_le hcode (by decide)
    have hmod : toBits (.signed negative ⟨code, hcode⟩) % signWeight = code := by
      cases negative with
      | false => simpa [toBits] using Nat.mod_eq_of_lt hlt
      | true => simpa [toBits] using Nat.mod_eq_of_lt hlt
    have hsign : (toBits (.signed negative ⟨code, hcode⟩) / signWeight % 2 == 1) = negative := by
      cases negative with
      | false => simp [toBits, Nat.div_eq_of_lt hlt]
      | true =>
        have hone : (signWeight + code) / signWeight = 1 := by
          rw [Nat.add_div_left _ (by decide), Nat.div_eq_of_lt hlt]
        simp [toBits, hone]
    unfold ofBits
    simp only [hmod, hsign]
    rw [dif_pos hcode]

theorem toBits_lt (x : Number) : x.toBits < Codec.argumentLimit := by
  cases x with
  | nan => decide
  | signed negative code =>
    have hcode : code.val < infinityCode + 1 := code.isLt
    have hlimit : infinityCode + signWeight < Codec.argumentLimit := by decide
    simp only [toBits]
    split <;> omega

end Number

namespace Codec

/-! ## Heads -/

theorem take_append {count : Nat} {s : Bytes} (hs : s.length = count) (rest : Bytes) :
    take count (s ++ rest) = .ok (s, rest) := by
  subst hs
  unfold take
  simp

/-- The first byte of a head gives back its two parts. -/
theorem lead_parts {major info : Nat} (hmajor : major < 8) (hinfo : info < 32) :
    majorOf (major * 32 + info).toUInt8 = major ∧
      (major * 32 + info).toUInt8.toNat % 32 = info := by
  have hlead : (major * 32 + info).toUInt8.toNat = major * 32 + info := by
    rw [Nat.toUInt8, UInt8.toNat_ofNat']
    omega
  unfold majorOf
  rw [hlead]
  omega

theorem readHead_short {major info : Nat} (hmajor : major < 8) (hinfo : info < 24)
    (rest : Bytes) :
    readHead ((major * 32 + info).toUInt8 :: rest) =
      .ok (⟨major, info, .definite info⟩, rest) := by
  obtain ⟨hlead, hlow⟩ := lead_parts hmajor (show info < 32 by omega)
  simp only [readHead]
  rw [hlead, hlow, if_pos hinfo]

/-- A head whose argument follows in bytes of its own. -/
theorem readHead_wide {major info width : Nat} (hmajor : major < 8)
    (hwidth : argumentWidth? info = some width) (hsimple : major = 7 → info ≠ 24) (n : Nat)
    (rest : Bytes) :
    readHead ((major * 32 + info).toUInt8 :: (Bytes.bigEndian width n ++ rest)) =
      .ok (⟨major, info, .definite (n % Nat.pow 256 width)⟩, rest) := by
  have hinfo : 24 ≤ info ∧ info < 32 := by
    unfold argumentWidth? at hwidth
    split at hwidth
    case h_5 => cases hwidth
    all_goals omega
  obtain ⟨hlead, hlow⟩ := lead_parts hmajor hinfo.2
  -- Only simple values with an argument byte may be refused here.
  have hallowed : ∀ m : Nat, (major == 7 && info == 24 && decide (m < 32)) = false := by
    intro m
    by_cases hseven : major = 7
    · simp [hsimple hseven]
    · simp [hseven]
  simp only [readHead]
  rw [hlead, hlow, if_neg (by omega), hwidth]
  simp only [take_append (Bytes.length_bigEndian width n) rest]
  show (if (major == 7 && info == 24 && decide (Bytes.toNat (Bytes.bigEndian width n) < 32)) = true
    then _ else _) = _
  rw [hallowed, Bytes.toNat_bigEndian]
  rfl

/-- The lower five bits of the shortest head for an argument. -/
def infoFor (n : Nat) : Nat :=
  if n < 24 then n
  else if n < 0x100 then 24
  else if n < 0x10000 then 25
  else if n < 0x100000000 then 26
  else 27

/-- **A head is read back** from its shortest form. Simple values with an argument byte of
    their own are left out. -/
theorem readHead_writeHead {major n : Nat} (hmajor : major < 8) (hn : n < argumentLimit)
    (hsimple : major < 7 ∨ n < 24) (rest : Bytes) :
    readHead (writeHead major n ++ rest) = .ok (⟨major, infoFor n, .definite n⟩, rest) := by
  have hwide : ∀ {info width : Nat}, argumentWidth? info = some width → ¬n < 24 →
      n < Nat.pow 256 width →
      readHead ((major * 32 + info).toUInt8 :: (Bytes.bigEndian width n ++ rest)) =
        .ok (⟨major, info, .definite n⟩, rest) := by
    intro info width hwidth hlong hfits
    rw [readHead_wide hmajor hwidth (by omega) n rest, Nat.mod_eq_of_lt hfits]
  unfold writeHead infoFor
  split
  · next hshort => exact readHead_short hmajor hshort rest
  · next hlong =>
    split
    · next hbyte => exact hwide rfl hlong hbyte
    · split
      · next hpair => exact hwide rfl hlong hpair
      · split
        · next hfour => exact hwide rfl hlong hfour
        · exact hwide rfl hlong hn

theorem writeHead_ne_nil (major n : Nat) : writeHead major n ≠ [] := by
  simp only [writeHead]
  repeat' split
  all_goals exact List.cons_ne_nil _ _

/-! ## Floats -/

/-- The heads of floats have the major type of simple values, but all have a longer argument. -/
theorem simpleOrFloat_infoFor {n : Nat} (hn : n < 24) : simpleOrFloat (infoFor n) n = .simple n := by
  unfold infoFor simpleOrFloat
  rw [if_pos hn]
  split
  case h_4 => rfl
  all_goals omega

/-- **A float is read back** from its shortest exact form. -/
theorem readHead_writeFloat (x : Number) (rest : Bytes) :
    ∃ info n, readHead (writeFloat x ++ rest) = .ok (⟨7, info, .definite n⟩, rest) ∧
      simpleOrFloat info n = .float x := by
  have hwide : ∀ info width bits : Nat, argumentWidth? info = some width → info ≠ 24 →
      readHead ((7 * 32 + info).toUInt8 :: (Bytes.bigEndian width bits ++ rest)) =
        .ok (⟨7, info, .definite (bits % Nat.pow 256 width)⟩, rest) :=
    fun info width bits hwidth hinfo =>
      readHead_wide (by decide) hwidth (fun _ => hinfo) bits rest
  unfold writeFloat
  split
  · next hnan =>
    refine ⟨25, _, hwide 25 2 0x7e00 rfl (by decide), ?_⟩
    cases x with
    | nan => rfl
    | signed negative code => cases hnan
  · split
    · next bits hbits =>
      -- The bytes hold the bits modulo the width of the format, and that is all `widen` reads.
      refine ⟨25, _, hwide 25 2 bits rfl (by decide), ?_⟩
      rw [← Number.Format.widen_of_narrow? hbits, ← Number.Format.widen_mod .half bits]
      rfl
    · split
      · next bits hbits =>
        refine ⟨26, _, hwide 26 4 bits rfl (by decide), ?_⟩
        rw [← Number.Format.widen_of_narrow? hbits, ← Number.Format.widen_mod .single bits]
        rfl
      · refine ⟨27, _, hwide 27 8 x.toBits rfl (by decide), ?_⟩
        have hbits : x.toBits % Nat.pow 256 8 = x.toBits := Nat.mod_eq_of_lt x.toBits_lt
        rw [hbits]
        show Item.float (Number.ofBits x.toBits) = .float x
        rw [Number.ofBits_toBits]

end Codec

end ValueRuntime
