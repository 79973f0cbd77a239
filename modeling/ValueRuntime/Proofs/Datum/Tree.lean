import ValueRuntime.Proofs.Datum.Every

/-! # Trees of data

    The tree of a datum is what is left of it when the room of its lists and objects is not
    looked at: kinds, scalars, and items, keys and values in their order. Equality of data is
    equality of what stands in their trees.
-/

namespace ValueRuntime.Datum

/-! ## Trees -/

mutual

/-- **The tree of a datum**, with no room to spare anywhere. -/
def tree : Datum → Datum
  | .list _ items => .list 0 (trees items)
  | .object _ keys values => .object 0 (trees keys) (trees values)
  | d => d

/-- The trees of several data. -/
def trees : List Datum → List Datum
  | [] => []
  | d :: rest => tree d :: trees rest

end

theorem trees_eq_map (ds : List Datum) : trees ds = ds.map tree := by
  induction ds with
  | nil => rfl
  | cons d rest ih => rw [trees, ih, List.map_cons]

theorem equalAll_trees {xs : List Datum}
    (hequal : ∀ x ∈ xs, ∀ y : Datum, x.tree.equal y.tree = x.equal y) (ys : List Datum) :
    equalAll (trees xs) (trees ys) = equalAll xs ys := by
  induction xs generalizing ys with
  | nil => cases ys <;> rfl
  | cons x rest ih =>
    cases ys with
    | nil => rfl
    | cons y more =>
      rw [trees, trees, equalAll, equalAll, hequal x List.mem_cons_self,
        ih fun x hx => hequal x (List.mem_cons_of_mem _ hx)]

/-- **Equality sees trees only.** -/
theorem equal_tree (a b : Datum) : a.tree.equal b.tree = a.equal b := by
  induction a using treeInduction generalizing b with
  | list capacity items ih =>
    cases b with
    | list capacity' items' => exact equalAll_trees ih items'
    | _ => rfl
  | _ => cases b <;> rfl

/-! ## Nesting -/

mutual

/-- How many lists and objects stand inside one another, at most. -/
def depth : Datum → Nat
  | .list _ items => depthOf items + 1
  | .object _ keys values => max (depthOf keys) (depthOf values) + 1
  | .hollow => 1
  | _ => 0

/-- The greatest depth of several data. -/
def depthOf : List Datum → Nat
  | [] => 0
  | d :: rest => max d.depth (depthOf rest)

end

theorem depthOf_le_iff (ds : List Datum) (n : Nat) : depthOf ds ≤ n ↔ ∀ d ∈ ds, d.depth ≤ n := by
  induction ds with
  | nil => simp [depthOf]
  | cons d rest ih => rw [depthOf, Nat.max_le, ih, List.forall_mem_cons]

theorem depth_list_le_iff (capacity : Nat) (items : List Datum) (n : Nat) :
    (Datum.list capacity items).depth ≤ n ↔ 0 < n ∧ ∀ d ∈ items, d.depth ≤ n - 1 := by
  rw [← depthOf_le_iff, depth]
  omega

theorem depth_object_le_iff (capacity : Nat) (keys values : List Datum) (n : Nat) :
    (Datum.object capacity keys values).depth ≤ n ↔
      0 < n ∧ (∀ d ∈ keys, d.depth ≤ n - 1) ∧ ∀ d ∈ values, d.depth ≤ n - 1 := by
  rw [← depthOf_le_iff, ← depthOf_le_iff, depth]
  omega

/-- Whether a datum is a list or an object. -/
def isContainer : Datum → Bool
  | .list _ _ => true
  | .object _ _ _ => true
  | .hollow => true
  | _ => false

/-- **A part of a datum** that lies inside a number of lists and objects. -/
inductive Inside : (count : Nat) → (part d : Datum) → Prop where
  | here (d : Datum) : Inside 0 d d
  | item {count capacity : Nat} {items : List Datum} {part d : Datum} (hd : d ∈ items)
      (hpart : Inside count part d) : Inside (count + 1) part (.list capacity items)
  | key {count capacity : Nat} {keys values : List Datum} {part d : Datum} (hd : d ∈ keys)
      (hpart : Inside count part d) : Inside (count + 1) part (.object capacity keys values)
  | value {count capacity : Nat} {keys values : List Datum} {part d : Datum} (hd : d ∈ values)
      (hpart : Inside count part d) : Inside (count + 1) part (.object capacity keys values)

theorem lt_depthOf_iff (ds : List Datum) (n : Nat) : n < depthOf ds ↔ ∃ d ∈ ds, n < d.depth := by
  induction ds with
  | nil => simp [depthOf]
  | cons d rest ih =>
    have hmax : n < max d.depth (depthOf rest) ↔ n < d.depth ∨ n < depthOf rest := by omega
    rw [depthOf, hmax, ih]
    simp

/-- **The depth of a datum** is how far in its innermost list or object lies. -/
theorem lt_depth_iff (d : Datum) (n : Nat) :
    n < d.depth ↔ ∃ part, part.isContainer = true ∧ Inside n part d := by
  induction d using treeInduction generalizing n with
  | list capacity items ih =>
    cases n with
    | zero => exact ⟨fun _ => ⟨_, rfl, .here _⟩, fun _ => by rw [depth]; omega⟩
    | succ n =>
      have hdepth : n + 1 < (Datum.list capacity items).depth ↔ ∃ d ∈ items, n < d.depth := by
        rw [← lt_depthOf_iff, depth]
        omega
      rw [hdepth]
      constructor
      · rintro ⟨d, hd, hlt⟩
        obtain ⟨part, hcontainer, hpart⟩ := (ih d hd n).mp hlt
        exact ⟨part, hcontainer, .item hd hpart⟩
      · rintro ⟨part, hcontainer, hinside⟩
        cases hinside with
        | item hd hpart => exact ⟨_, hd, (ih _ hd n).mpr ⟨part, hcontainer, hpart⟩⟩
  | object capacity keys values ihk ihv =>
    cases n with
    | zero => exact ⟨fun _ => ⟨_, rfl, .here _⟩, fun _ => by rw [depth]; omega⟩
    | succ n =>
      have hdepth : n + 1 < (Datum.object capacity keys values).depth ↔
          (∃ d ∈ keys, n < d.depth) ∨ ∃ d ∈ values, n < d.depth := by
        rw [← lt_depthOf_iff, ← lt_depthOf_iff, depth]
        omega
      rw [hdepth]
      constructor
      · rintro (⟨d, hd, hlt⟩ | ⟨d, hd, hlt⟩)
        · obtain ⟨part, hcontainer, hpart⟩ := (ihk d hd n).mp hlt
          exact ⟨part, hcontainer, .key hd hpart⟩
        · obtain ⟨part, hcontainer, hpart⟩ := (ihv d hd n).mp hlt
          exact ⟨part, hcontainer, .value hd hpart⟩
      · rintro ⟨part, hcontainer, hinside⟩
        cases hinside with
        | key hd hpart => exact .inl ⟨_, hd, (ihk _ hd n).mpr ⟨part, hcontainer, hpart⟩⟩
        | value hd hpart => exact .inr ⟨_, hd, (ihv _ hd n).mpr ⟨part, hcontainer, hpart⟩⟩
  | hollow =>
    constructor
    · intro hlt
      obtain rfl : n = 0 := by simpa [depth] using hlt
      exact ⟨_, rfl, .here _⟩
    · rintro ⟨part, -, hinside⟩
      cases hinside
      simp [depth]
  | _ =>
    -- A scalar has no depth, and nothing lies inside it but itself.
    constructor
    · intro hlt
      simp [depth] at hlt
    · rintro ⟨part, hcontainer, hinside⟩
      cases hinside
      cases hcontainer

/-! ## Keys -/

/-- Whether no object in a datum has two equal keys. -/
def hasDistinctKeys : Datum → Bool := every fun
  | .object _ keys _ => decide (keys.Pairwise fun a b => a.equal b = false)
  | _ => true

end ValueRuntime.Datum
