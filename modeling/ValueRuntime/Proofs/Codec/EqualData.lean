import Mathlib.Data.List.Forall2
import ValueRuntime.Proofs.Codec.Canonical
import ValueRuntime.Proofs.Datum.Equality

/-! # Encoded forms of equal data

    The encoded form of a datum shows one thing that equality does not see: the sign of a zero.
    Equal data have the same encoded form exactly when the zeros in them have the same signs,
    in the order in which they come.

    Nothing is assumed about sizes here. Equal data have the same shape, so their encoded forms
    can be compared piece by piece, and only the numbers have to be read off the bytes.
-/

namespace ValueRuntime

/-! ## Zeros -/

namespace Number

/-- Equal numbers of one sign are the same. -/
theorem eq_of_equal {x y : Number} (hxy : x.equal y = true)
    (hsign : x.isNegative = y.isNegative) : x = y := by
  obtain ⟨place, hx, hy⟩ := (equal_iff x y).mp hxy
  cases x with
  | nan => cases hx
  | signed negative code =>
    cases y with
    | nan => cases hy
    | signed negative' code' =>
      obtain rfl : negative = negative' := hsign
      have hplaces := Option.some.inj (hx.trans hy.symm)
      have hcode : (code : Nat) = code' := by
        cases negative with
        | false =>
          have hup : (code : Int) = code' := hplaces
          omega
        | true =>
          have hdown : -(code : Int) = -code' := hplaces
          omega
      rw [Fin.ext hcode]

/-- Equal numbers of different signs are zeros. -/
theorem isZero_of_equal {x y : Number} (hxy : x.equal y = true)
    (hsign : x.isNegative ≠ y.isNegative) : x.isZero = true := by
  obtain ⟨place, hx, hy⟩ := (equal_iff x y).mp hxy
  refine (equal_iff _ _).mpr ⟨0, ?_, rfl⟩
  cases x with
  | nan => cases hx
  | signed negative code =>
    cases y with
    | nan => cases hy
    | signed negative' code' =>
      -- One place is not above zero, and the other is not below it.
      have hplaces := Option.some.inj (hx.trans hy.symm)
      have hcode : (code : Nat) = 0 := by
        cases negative <;> cases negative'
        · exact absurd rfl hsign
        · have hopposite : (code : Int) = -code' := hplaces
          omega
        · have hopposite : -(code : Int) = code' := hplaces
          omega
        · exact absurd rfl hsign
      cases negative <;> simp [place?, hcode]

theorem isZero_eq_of_equal {x y : Number} (hxy : x.equal y = true) : x.isZero = y.isZero := by
  have hyx : y.equal x = true := by
    rw [equal_comm]
    exact hxy
  rw [Bool.eq_iff_iff]
  exact ⟨equal_trans hyx, equal_trans hxy⟩

/-- The sign of a number if it is a zero, and nothing otherwise. -/
def zeroSigns (x : Number) : List Bool := if x.isZero then [x.isNegative] else []

/-- **Equal numbers** are the same number, unless they are zeros of different signs. -/
theorem eq_of_zeroSigns {x y : Number} (hxy : x.equal y = true)
    (hsigns : x.zeroSigns = y.zeroSigns) : x = y := by
  by_cases hsign : x.isNegative = y.isNegative
  · exact eq_of_equal hxy hsign
  · have hx : x.isZero = true := isZero_of_equal hxy hsign
    have hy : y.isZero = true := by rw [← isZero_eq_of_equal hxy, hx]
    rw [zeroSigns, zeroSigns, if_pos hx, if_pos hy] at hsigns
    exact absurd (List.cons.inj hsigns).1 hsign

end Number

namespace Datum

mutual

/-- **The signs of the zeros** in a datum, from left to right. -/
def zeroSigns : Datum → List Bool
  | .number x => x.zeroSigns
  | .list _ items => zeroSignsOf items
  | .object _ keys values => zeroSignsOf keys ++ zeroSignsOf values
  | _ => []

/-- The signs of the zeros in several data. -/
def zeroSignsOf : List Datum → List Bool
  | [] => []
  | d :: rest => zeroSigns d ++ zeroSignsOf rest

end

/-! ## Equal data -/

/-- There are no objects in equal data. -/
theorem isBalanced_of_equal {a b : Datum} (hab : a.equal b = true) : a.isBalanced = true := by
  induction hab using equalInduction with
  | number x y hxy => rfl
  | list capacity capacity' items items' hequal hitems =>
    rw [isBalanced_list_iff]
    clear hequal
    induction hitems with
    | nil => exact fun d hd => by cases hd
    | cons hfirst _ ih =>
      obtain ⟨_, hbalanced⟩ := hfirst
      exact List.forall_mem_cons.mpr ⟨hbalanced, ih⟩
  | scalar d hself hd =>
    cases d with
    | list capacity items => cases hd
    | object capacity keys values => cases hd
    | _ => rfl

/-- Equal data have as many zeros. -/
theorem length_zeroSigns_of_equal {a b : Datum} (hab : a.equal b = true) :
    a.zeroSigns.length = b.zeroSigns.length := by
  induction hab using equalInduction with
  | number x y hxy =>
    rw [zeroSigns, zeroSigns, Number.zeroSigns, Number.zeroSigns, Number.isZero_eq_of_equal hxy]
    split <;> rfl
  | list capacity capacity' items items' hequal hitems =>
    rw [zeroSigns, zeroSigns]
    clear hequal
    induction hitems with
    | nil => rfl
    | cons hfirst _ ih =>
      obtain ⟨_, hlength⟩ := hfirst
      rw [zeroSignsOf, zeroSignsOf, List.length_append, List.length_append, hlength, ih]
  | scalar d hself hd => rfl

end Datum

namespace Codec

/-! ## From signs to bytes -/

/-- **Equal data with the same zeros** have the same record. -/
theorem recordOf_eq_of_zeroSigns {a b : Datum} (hab : a.equal b = true)
    (hsigns : a.zeroSigns = b.zeroSigns) : recordOf a = recordOf b := by
  induction hab using Datum.equalInduction with
  | number x y hxy =>
    rw [Number.eq_of_zeroSigns hxy hsigns]
  | list capacity capacity' items items' hequal hitems =>
    rw [Datum.zeroSigns, Datum.zeroSigns] at hsigns
    have hrecords : recordsOf items = recordsOf items' := by
      clear hequal
      induction hitems with
      | nil => rfl
      | cons hfirst _ ih =>
        obtain ⟨hfirstEqual, hrecord⟩ := hfirst
        -- There are as many zeros in the first items, so the signs can be divided.
        obtain ⟨hsigns, hmore⟩ :=
          List.append_inj hsigns (Datum.length_zeroSigns_of_equal hfirstEqual)
        rw [recordsOf, recordsOf, hrecord hsigns, ih hmore]
    rw [recordOf, recordOf, hrecords]
  | scalar d hself hd => rfl

/-! ## From bytes to signs -/

/-- The bytes of a list before its items. -/
def listHead (count : Nat) : Bytes :=
  writeHead 5 (if count = 0 then 2 else 3) ++ writeHead 0 1 ++ writeHead 0 Kind.list.code
    ++ writeHead 0 3 ++ writeFloat (.zero false)
    ++ if count = 0 then [] else writeHead 0 5 ++ writeHead 4 count

theorem write_list (capacity : Nat) (items : List Datum) :
    (recordOf (.list capacity items)).toItem.write
      = listHead items.length ++ writeAll (toItems (recordsOf items)) := by
  cases items <;>
    simp [recordOf, recordsOf, kindRecord, Record.empty, Record.toItem, toItems, optionalField,
      Item.write, writeAll, listHead, toItems_eq_map, length_recordsOf]

/-- **The signs of the zeros** in equal data are read off their bytes. -/
theorem zeroSigns_eq_of_write {a b : Datum} (hab : a.equal b = true) {rest rest' : Bytes}
    (hbytes : (recordOf a).toItem.write ++ rest = (recordOf b).toItem.write ++ rest') :
    a.zeroSigns = b.zeroSigns ∧ rest = rest' := by
  induction hab using Datum.equalInduction generalizing rest rest' with
  | number x y hxy =>
    -- The item of a number is plain, so it can be read off the bytes.
    have hplain (x : Number) : (recordOf (.number x)).Plain 1 :=
      plain_recordOf rfl rfl (Nat.zero_le 0)
    obtain ⟨hitem, hrest⟩ := (hplain x).toItem.eq_of_write (hplain y).toItem hbytes
    have hsame : x = y := congrArg Record.number (Record.eq_of_toItem hitem)
    exact ⟨by rw [hsame], hrest⟩
  | list capacity capacity' items items' hequal hitems =>
    -- Equal lists are equally long, so their heads are the same and the items can be compared
    -- one by one.
    rw [write_list, write_list, hitems.length_eq, List.append_assoc, List.append_assoc] at hbytes
    replace hbytes := List.append_cancel_left hbytes
    rw [Datum.zeroSigns, Datum.zeroSigns]
    clear hequal
    induction hitems with
    | nil => exact ⟨rfl, hbytes⟩
    | cons hfirst _ ih =>
      rw [recordsOf, recordsOf, toItems, toItems, writeAll, writeAll, List.append_assoc,
        List.append_assoc] at hbytes
      obtain ⟨_, hwrite⟩ := hfirst
      obtain ⟨hsigns, hmore⟩ := hwrite hbytes
      obtain ⟨hsignsOf, hrest⟩ := ih hmore
      exact ⟨by rw [Datum.zeroSignsOf, Datum.zeroSignsOf, hsigns, hsignsOf], hrest⟩
  | scalar d hself hd => exact ⟨rfl, List.append_cancel_left hbytes⟩

end Codec

/-! ## Encoded forms -/

open Codec

/-- **Equal data and their encoded forms.** Equal data that are encoded have the same encoded
    form exactly when the zeros in them have the same signs. -/
theorem equal_data_same_form_iff {a b : Datum} (hab : a.equal b = true) {x y : Bytes}
    (hx : encode a = .ok x) (hy : encode b = .ok y) : x = y ↔ a.zeroSigns = b.zeroSigns := by
  have hba : b.equal a = true := by
    rw [Datum.equal_comm]
    exact hab
  obtain ⟨-, rfl⟩ := (encode_eq_ok_iff (Datum.isBalanced_of_equal hab) x).mp hx
  obtain ⟨-, rfl⟩ := (encode_eq_ok_iff (Datum.isBalanced_of_equal hba) y).mp hy
  constructor
  · intro hbytes
    exact (zeroSigns_eq_of_write hab (congrArg (· ++ []) hbytes)).1
  · intro hsigns
    rw [recordOf_eq_of_zeroSigns hab hsigns]

/-- The encoded form of a list does not show its room, but it does show the sign of a zero in
    it. -/
theorem zero_sign_shown_in_list :
    let list room negative := Datum.list room [.string [0xff], .number (.zero negative)]
    ∃ x y z, encode (list 8 true) = .ok x ∧ encode (list 2 true) = .ok y ∧
      encode (list 2 false) = .ok z ∧ x = y ∧ x ≠ z := by
  intro list
  obtain ⟨x, hx⟩ : ∃ x, encode (list 8 true) = .ok x := ⟨_, rfl⟩
  obtain ⟨y, hy⟩ : ∃ y, encode (list 2 true) = .ok y := ⟨_, rfl⟩
  obtain ⟨z, hz⟩ : ∃ z, encode (list 2 false) = .ok z := ⟨_, rfl⟩
  have hroom := equal_data_same_form_iff (by decide) hx hy
  have hsign := equal_data_same_form_iff (by decide) hx hz
  refine ⟨x, y, z, hx, hy, hz, hroom.mpr (by decide), fun hbytes => ?_⟩
  have hzeros := hsign.mp hbytes
  exact absurd hzeros (by decide)

/-- The two zeros are equal and have different encoded forms. -/
theorem zeros_differ_in_form :
    (Datum.number (.zero false)).equal (.number (.zero true)) = true ∧
      ∃ x y, encode (.number (.zero false)) = .ok x ∧ encode (.number (.zero true)) = .ok y ∧
        x ≠ y := by
  refine ⟨by decide, _, _, rfl, rfl, fun hbytes => ?_⟩
  obtain ⟨hsigns, -⟩ := zeroSigns_eq_of_write (a := .number (.zero false))
    (b := .number (.zero true)) (by decide) (congrArg (· ++ []) hbytes)
  exact absurd hsigns (by decide)

end ValueRuntime
