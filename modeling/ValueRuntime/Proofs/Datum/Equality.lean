import Mathlib.Data.List.Forall2
import ValueRuntime.Proofs.Datum.Tree

/-! # Equality as a relation

    Equality of data is symmetric and transitive, but a datum need not equal itself: "not a
    number" and objects equal nothing. Looking up a key of an object relies on the first two,
    and the third says which keys can be found again at all.

    Equality enters lists and nothing else, so what decides is the *elements* of a datum: the
    datum itself, and whatever stands in it behind lists only.
-/

namespace ValueRuntime

/-! ## Numbers -/

namespace Number

/-- Numbers are equal when they share a place in the numeric order. -/
theorem equal_iff (x y : Number) :
    x.equal y = true ↔ ∃ place, x.place? = some place ∧ y.place? = some place := by
  unfold equal
  cases hx : x.place? with
  | none => simp
  | some a =>
    cases hy : y.place? with
    | none => simp
    | some b =>
      simp only [beq_iff_eq, Option.some.injEq, exists_eq_left']
      exact eq_comm

theorem equal_comm (x y : Number) : x.equal y = y.equal x := by
  rw [Bool.eq_iff_iff, equal_iff, equal_iff]
  simp only [and_comm]

theorem equal_trans {x y z : Number} (hxy : x.equal y = true) (hyz : y.equal z = true) :
    x.equal z = true := by
  rw [equal_iff] at *
  obtain ⟨a, hx, hy⟩ := hxy
  obtain ⟨b, hy', hz⟩ := hyz
  -- The number in the middle has one place only.
  have hab : a = b := by
    rw [hy] at hy'
    exact Option.some.inj hy'
  exact ⟨a, hx, by rw [hab]; exact hz⟩

/-- **"Not a number"** is the one number that does not equal itself. -/
theorem equal_self_iff (x : Number) : x.equal x = true ↔ x ≠ .nan := by
  rw [equal_iff]
  cases x with
  | nan => simp [place?]
  | signed negative code => simp [place?]

end Number

namespace Datum

/-! ## Symmetry and transitivity

    Both are shown for lists item by item, given the claim for the items of the first list,
    and then for data by induction. -/

theorem equalAll_comm {xs : List Datum} (hcomm : ∀ x ∈ xs, ∀ y : Datum, x.equal y = y.equal x)
    (ys : List Datum) : equalAll xs ys = equalAll ys xs := by
  induction xs generalizing ys with
  | nil => cases ys <;> rfl
  | cons x rest ih =>
    cases ys with
    | nil => rfl
    | cons y more =>
      have hfirst : x.equal y = y.equal x := hcomm x List.mem_cons_self y
      have hrest : equalAll rest more = equalAll more rest :=
        ih (fun x hx => hcomm x (List.mem_cons_of_mem _ hx)) more
      simp only [equalAll, hfirst, hrest]

/-- **Equality is symmetric.** -/
theorem equal_comm (a b : Datum) : a.equal b = b.equal a := by
  induction a using treeInduction generalizing b with
  | boolean x =>
    cases b with
    | boolean y => exact Bool.beq_comm
    | _ => rfl
  | number x =>
    cases b with
    | number y => exact Number.equal_comm x y
    | _ => rfl
  | string s =>
    cases b with
    | string t => exact Bool.beq_comm
    | _ => rfl
  | list capacity items ih =>
    cases b with
    | list capacity' items' => exact equalAll_comm ih items'
    | _ => rfl
  | function f =>
    cases b with
    | function g => exact Bool.beq_comm
    | _ => rfl
  | _ => cases b <;> rfl

theorem equalAll_trans {xs : List Datum}
    (htrans : ∀ x ∈ xs, ∀ y z : Datum, x.equal y = true → y.equal z = true → x.equal z = true)
    {ys zs : List Datum} (hxy : equalAll xs ys = true) (hyz : equalAll ys zs = true) :
    equalAll xs zs = true := by
  induction xs generalizing ys zs with
  | nil =>
    cases ys with
    | nil => exact hyz
    | cons y more => cases hxy
  | cons x rest ih =>
    cases ys with
    | nil => cases hxy
    | cons y more =>
      cases zs with
      | nil => cases hyz
      | cons z others =>
        simp only [equalAll, Bool.and_eq_true] at hxy hyz ⊢
        constructor
        · exact htrans x List.mem_cons_self y z hxy.1 hyz.1
        · exact ih (fun x hx => htrans x (List.mem_cons_of_mem _ hx)) hxy.2 hyz.2

/-- **Equality is transitive.** Data that are equal to something have its kind, so each case
    is about three data of one kind. -/
theorem equal_trans {a b c : Datum} (hab : a.equal b = true) (hbc : b.equal c = true) :
    a.equal c = true := by
  induction a using treeInduction generalizing b c with
  | nil =>
    cases b with
    | nil => exact hbc
    | _ => cases hab
  | boolean x =>
    cases b with
    | boolean y =>
      have hxy : x = y := eq_of_beq hab
      rw [hxy]
      exact hbc
    | _ => cases hab
  | number x =>
    cases b with
    | number y =>
      cases c with
      | number z => exact Number.equal_trans hab hbc
      | _ => cases hbc
    | _ => cases hab
  | string s =>
    cases b with
    | string t =>
      have hst : s = t := eq_of_beq hab
      rw [hst]
      exact hbc
    | _ => cases hab
  | list capacity items ih =>
    cases b with
    | list capacity' items' =>
      cases c with
      | list capacity'' items'' =>
        exact equalAll_trans (fun x hx y z => ih x hx) hab hbc
      | _ => cases hbc
    | _ => cases hab
  | function f =>
    cases b with
    | function g =>
      have hfg : f = g := eq_of_beq hab
      rw [hfg]
      exact hbc
    | _ => cases hab
  | _ => cases b <;> cases hab

/-! ## Two equal data -/

theorem forall₂_of_equalAll {motive : ∀ a b : Datum, a.equal b = true → Prop} {xs ys : List Datum}
    (hmotive : ∀ x ∈ xs, ∀ (y : Datum) (hxy : x.equal y = true), motive x y hxy)
    (hequal : equalAll xs ys = true) :
    List.Forall₂ (fun x y => ∃ hxy : x.equal y = true, motive x y hxy) xs ys := by
  induction xs generalizing ys with
  | nil =>
    cases ys with
    | nil => exact .nil
    | cons y more => cases hequal
  | cons x rest ih =>
    cases ys with
    | nil => cases hequal
    | cons y more =>
      rw [equalAll, Bool.and_eq_true] at hequal
      exact .cons ⟨hequal.1, hmotive x List.mem_cons_self y hequal.1⟩
        (ih (fun x hx => hmotive x (List.mem_cons_of_mem _ hx)) hequal.2)

/-- **Induction over two equal data:** both are numbers, or both are lists with equal items, or
    they are the same scalar. -/
theorem equalInduction {motive : ∀ a b : Datum, a.equal b = true → Prop}
    (number : ∀ (x y : Number) (hxy : x.equal y = true), motive (.number x) (.number y) hxy)
    (list : ∀ capacity capacity' items items' (hequal : equalAll items items' = true),
      List.Forall₂ (fun x y => ∃ hxy : x.equal y = true, motive x y hxy) items items' →
        motive (.list capacity items) (.list capacity' items') hequal)
    (scalar : ∀ (d : Datum) (hd : d.equal d = true), d.isContainer = false → motive d d hd)
    {a b : Datum} (hab : a.equal b = true) : motive a b hab := by
  induction a using treeInduction generalizing b with
  | nil =>
    cases b with
    | nil => exact scalar _ hab rfl
    | _ => cases hab
  | boolean x =>
    cases b with
    | boolean y =>
      obtain rfl : x = y := eq_of_beq hab
      exact scalar _ hab rfl
    | _ => cases hab
  | number x =>
    cases b with
    | number y => exact number x y hab
    | _ => cases hab
  | string s =>
    cases b with
    | string t =>
      obtain rfl : s = t := eq_of_beq hab
      exact scalar _ hab rfl
    | _ => cases hab
  | list capacity items ih =>
    cases b with
    | list capacity' items' =>
      exact list _ _ _ _ hab (forall₂_of_equalAll (fun x hx y => ih x hx) hab)
    | _ => cases hab
  | function f =>
    cases b with
    | function g =>
      obtain rfl : f = g := eq_of_beq hab
      exact scalar _ hab rfl
    | _ => cases hab
  | _ => cases b <;> cases hab

/-! ## What equals itself -/

/-- **An element of a datum:** the datum itself, or an element of an item when it is a list. -/
inductive Element : (part d : Datum) → Prop where
  | here (d : Datum) : Element d d
  | item {capacity : Nat} {items : List Datum} {part d : Datum} (hd : d ∈ items)
      (hpart : Element part d) : Element part (.list capacity items)

theorem equalAll_self_iff (ds : List Datum) :
    equalAll ds ds = true ↔ ∀ d ∈ ds, d.equal d = true := by
  induction ds with
  | nil => simp [equalAll]
  | cons d rest ih => simp [equalAll, ih]

/-- What has to hold of the elements of a datum that is no list has to hold of the datum. -/
theorem forall_element_iff {P : Datum → Prop} {d : Datum} (hd : d.kind ≠ .list) :
    (∀ part, Element part d → P part) ↔ P d := by
  constructor
  · intro hall
    exact hall d (.here d)
  · intro hP part hpart
    cases hpart with
    | here => exact hP
    | item hmem hinner => exact absurd rfl hd

theorem forall_element_list_iff {P : Datum → Prop} (capacity : Nat) (items : List Datum) :
    (∀ part, Element part (.list capacity items) → P part) ↔
      P (.list capacity items) ∧ ∀ d ∈ items, ∀ part, Element part d → P part := by
  constructor
  · intro hall
    constructor
    · exact hall _ (.here _)
    · intro d hd part hpart
      exact hall part (.item hd hpart)
  · rintro ⟨hself, hitems⟩ part hpart
    cases hpart with
    | here => exact hself
    | item hd hinner => exact hitems _ hd part hinner

/-- **What equals itself:** a datum that has neither "not a number" nor an object among its
    elements. -/
theorem equal_self_iff (d : Datum) :
    d.equal d = true ↔
      ∀ part, Element part d → part ≠ .number .nan ∧ part.kind ≠ .object := by
  induction d using treeInduction with
  | number x =>
    rw [forall_element_iff (by simp [kind])]
    have hself : (Datum.number x).equal (.number x) = x.equal x := by simp [equal]
    rw [hself, Number.equal_self_iff]
    simp [kind]
  | list capacity items ih =>
    rw [forall_element_list_iff]
    have hself : (Datum.list capacity items).equal (.list capacity items)
        = equalAll items items := by simp [equal]
    rw [hself, equalAll_self_iff]
    constructor
    · intro hitems
      exact ⟨by simp [kind], fun d hd => (ih d hd).mp (hitems d hd)⟩
    · rintro ⟨-, hitems⟩ d hd
      exact (ih d hd).mpr (hitems d hd)
  | _ =>
    rw [forall_element_iff (by simp [kind])]
    simp [equal, kind]

end Datum

end ValueRuntime
