import ValueRuntime.Datum.Basic

/-! # Conditions on everything in a datum

    `Datum.every` asks a condition of a datum and of all items, keys and values in it, at any
    depth. Conditions that speak of one container at a time, such as "an object has a value
    for each key", become conditions on whole trees that can be computed.
-/

namespace ValueRuntime.Datum

/-! ## Induction -/

/-- Induction over a datum: a container may use the claim for all that is in it. -/
theorem treeInduction {motive : Datum → Prop} (nil : motive .nil)
    (boolean : ∀ b, motive (.boolean b)) (number : ∀ x, motive (.number x))
    (string : ∀ s, motive (.string s))
    (list : ∀ capacity items, (∀ d ∈ items, motive d) → motive (.list capacity items))
    (object : ∀ capacity keys values, (∀ d ∈ keys, motive d) → (∀ d ∈ values, motive d) →
      motive (.object capacity keys values))
    (hollow : motive .hollow) (function : ∀ f, motive (.function f)) (d : Datum) : motive d := by
  refine @Datum.rec motive (fun ds => ∀ d ∈ ds, motive d) nil boolean number string list object
    hollow function ?_ ?_ d
  · intro d hd
    cases hd
  · intro first rest hfirst hrest d hd
    rcases List.mem_cons.mp hd with rfl | hd'
    · exact hfirst
    · exact hrest d hd'

/-! ## Conditions on trees -/

mutual

/-- Whether a condition holds of a datum and of everything in it. -/
def every (p : Datum → Bool) : Datum → Bool
  | .list capacity items => p (.list capacity items) && everyOf p items
  | .object capacity keys values =>
    p (.object capacity keys values) && everyOf p keys && everyOf p values
  | d => p d

/-- Whether a condition holds of everything in each datum. -/
def everyOf (p : Datum → Bool) : List Datum → Bool
  | [] => true
  | d :: rest => every p d && everyOf p rest

end

theorem everyOf_iff (p : Datum → Bool) (ds : List Datum) :
    everyOf p ds = true ↔ ∀ d ∈ ds, every p d = true := by
  induction ds with
  | nil => simp [everyOf]
  | cons d rest ih => simp [everyOf, ih]

theorem every_list_iff (p : Datum → Bool) (capacity : Nat) (items : List Datum) :
    every p (.list capacity items) = true ↔
      p (.list capacity items) = true ∧ ∀ d ∈ items, every p d = true := by
  rw [every, Bool.and_eq_true, everyOf_iff]

theorem every_object_iff (p : Datum → Bool) (capacity : Nat) (keys values : List Datum) :
    every p (.object capacity keys values) = true ↔
      p (.object capacity keys values) = true ∧ (∀ d ∈ keys, every p d = true) ∧
        ∀ d ∈ values, every p d = true := by
  rw [every, Bool.and_eq_true, Bool.and_eq_true, everyOf_iff, everyOf_iff, and_assoc]

/-- A condition that is two conditions in one. -/
theorem every_and_iff {p q r : Datum → Bool} (hr : ∀ d, r d = true ↔ p d = true ∧ q d = true)
    (d : Datum) : d.every r = true ↔ d.every p = true ∧ d.every q = true := by
  induction d using treeInduction with
  | list capacity items ih =>
    rw [every_list_iff, every_list_iff, every_list_iff, hr]
    constructor
    · rintro ⟨⟨hp, hq⟩, hitems⟩
      have hboth := fun d hd => (ih d hd).mp (hitems d hd)
      exact ⟨⟨hp, fun d hd => (hboth d hd).1⟩, hq, fun d hd => (hboth d hd).2⟩
    · rintro ⟨⟨hp, hps⟩, hq, hqs⟩
      exact ⟨⟨hp, hq⟩, fun d hd => (ih d hd).mpr ⟨hps d hd, hqs d hd⟩⟩
  | object capacity keys values ihk ihv =>
    rw [every_object_iff, every_object_iff, every_object_iff, hr]
    constructor
    · rintro ⟨⟨hp, hq⟩, hkeys, hvalues⟩
      have hk := fun d hd => (ihk d hd).mp (hkeys d hd)
      have hv := fun d hd => (ihv d hd).mp (hvalues d hd)
      exact ⟨⟨hp, fun d hd => (hk d hd).1, fun d hd => (hv d hd).1⟩, hq,
        fun d hd => (hk d hd).2, fun d hd => (hv d hd).2⟩
    · rintro ⟨⟨hp, hpk, hpv⟩, hq, hqk, hqv⟩
      exact ⟨⟨hp, hq⟩, fun d hd => (ihk d hd).mpr ⟨hpk d hd, hqk d hd⟩,
        fun d hd => (ihv d hd).mpr ⟨hpv d hd, hqv d hd⟩⟩
  | _ => exact hr _

/-- Lists around a datum keep a condition that lists of one item meet. -/
theorem every_repeat_list {p : Datum → Bool} {capacity : Nat}
    (hlist : ∀ d, p (.list capacity [d]) = true) {d : Datum} (hd : d.every p = true)
    (count : Nat) : (Nat.repeat (fun d => .list capacity [d]) count d).every p = true := by
  induction count with
  | zero => exact hd
  | succ count ih =>
    rw [Nat.repeat, every_list_iff]
    refine ⟨hlist _, fun inner hinner => ?_⟩
    rw [List.mem_singleton.mp hinner]
    exact ih

/-- Whether a datum holds no object without contents. -/
def isWhole : Datum → Bool := every fun
  | .hollow => false
  | _ => true

/-- Whether a datum holds no function. -/
def isFunctionFree : Datum → Bool := every fun
  | .function _ => false
  | _ => true

/-! ## Objects with a value for each key -/

/-- **A balanced datum:** every object in it has as many values as keys. -/
def isBalanced : Datum → Bool := every fun
  | .object _ keys values => keys.length == values.length
  | _ => true

@[simp] theorem isBalanced_list_iff (capacity : Nat) (items : List Datum) :
    (Datum.list capacity items).isBalanced = true ↔ ∀ d ∈ items, d.isBalanced = true := by
  unfold isBalanced
  rw [every_list_iff]
  simp

@[simp] theorem isBalanced_object_iff (capacity : Nat) (keys values : List Datum) :
    (Datum.object capacity keys values).isBalanced = true ↔
      keys.length = values.length ∧ (∀ d ∈ keys, d.isBalanced = true) ∧
        ∀ d ∈ values, d.isBalanced = true := by
  unfold isBalanced
  rw [every_object_iff]
  simp

end ValueRuntime.Datum
