import Mathlib.Algebra.Group.Nat.Defs
import Mathlib.Order.Bounds.Defs
import ValueRuntime.Proofs.Datum.Tree
import ValueRuntime.Proofs.Heap.Building
import ValueRuntime.Proofs.Heap.Distinct

/-! # Room

    A list has room for a number of items, and an object for a number of keys. The room doubles
    when one more entry comes and there is no room for it, so it is the least of all doublings
    that is enough. Nothing ever holds more than it has room for: what is laid out keeps the room
    of what it was laid out from, and an entry is pushed only after room was made for it.
-/

namespace ValueRuntime

/-! ## Doubling -/

/-- What doubling starts from. -/
def firstRoom (capacity : Nat) : Nat := if capacity = 0 then defaultCapacity else capacity

/-- **The least room** for a number of entries, of those that are reached by doubling. -/
def IsLeastRoom (first length room : Nat) : Prop :=
  IsLeast {other | (∃ doublings, other = first * 2 ^ doublings) ∧ length ≤ other} room

section Doubling

variable {first capacity length room added : Nat}

theorem firstRoom_pos (capacity : Nat) : 0 < firstRoom capacity := by
  unfold firstRoom defaultCapacity
  split <;> omega

theorem isLeastRoom_first (hfits : length ≤ first) : IsLeastRoom first length first := by
  refine ⟨⟨⟨0, (Nat.mul_one first).symm⟩, hfits⟩, ?_⟩
  rintro other ⟨⟨doublings, rfl⟩, -⟩
  exact Nat.le_mul_of_pos_right first (Nat.two_pow_pos doublings)

/-- **Making room for one more entry** gives the least room for it. -/
theorem IsLeastRoom.grown (hroom : IsLeastRoom first length room) (hfirst : 0 < first) :
    IsLeastRoom first (length + 1) (grownCapacity room length) := by
  obtain ⟨⟨⟨doublings, rfl⟩, hfits⟩, hleast⟩ := hroom
  unfold grownCapacity
  split
  · next hspare =>
    refine ⟨⟨⟨doublings, rfl⟩, hspare⟩, ?_⟩
    rintro other ⟨hother, hlength⟩
    exact hleast ⟨hother, Nat.le_of_succ_le hlength⟩
  · next hfull =>
    have hpos : 0 < first * 2 ^ doublings := Nat.mul_pos hfirst (Nat.two_pow_pos doublings)
    have hdouble : first * 2 ^ doublings * 2 = first * 2 ^ (doublings + 1) := by
      rw [Nat.pow_succ, Nat.mul_assoc]
    rw [if_neg (Nat.ne_of_gt hpos)]
    refine ⟨⟨⟨doublings + 1, hdouble⟩, by omega⟩, ?_⟩
    rintro other ⟨⟨more, rfl⟩, hlength⟩
    -- The full room was the largest that is too small now, so it was doubled once more.
    have hmore : doublings < more := by
      refine Nat.lt_of_not_le fun hle => ?_
      have hsmaller := Nat.mul_le_mul_left first (Nat.pow_le_pow_right Nat.two_pos hle)
      omega
    rw [hdouble]
    exact Nat.mul_le_mul_left first (Nat.pow_le_pow_right Nat.two_pos hmore)

/-- **The room after appending** is the least that is enough. -/
theorem isLeastRoom_capacityAfter (hfits : length ≤ capacity) (hadded : 0 < added) :
    IsLeastRoom (firstRoom capacity) (length + added) (capacityAfter capacity length added) := by
  obtain ⟨more, rfl⟩ : ∃ more, added = more + 1 := ⟨added - 1, by omega⟩
  induction more with
  | zero =>
    show IsLeastRoom _ _ (grownCapacity capacity length)
    by_cases hzero : capacity = 0
    · -- The first room comes with the first entry.
      subst hzero
      obtain rfl : length = 0 := Nat.le_zero.mp hfits
      exact isLeastRoom_first (by decide)
    · have hfirst : firstRoom capacity = capacity := if_neg hzero
      have hpos := firstRoom_pos capacity
      rw [hfirst] at hpos ⊢
      exact (isLeastRoom_first hfits).grown hpos
  | succ more ih =>
    rw [capacityAfter_succ]
    exact (ih (Nat.succ_pos more)).grown (firstRoom_pos capacity)

end Doubling

/-! ## Containers with room -/

/-- **Enough room:** a list has room for its items, and an object for its keys. -/
def Sizes.hasRoom : Sizes → Bool
  | .list capacity items => decide (items ≤ capacity)
  | .object capacity keys _ => decide (keys ≤ capacity)

/-- **Room lasts:** an entry comes only after room was made for it. -/
theorem Sizes.lasting_hasRoom : Lasting hasRoom where
  list := decide_eq_true
  object := fun count => decide_eq_true (le_capacityAfter_default count)
  keyList := id
  item := by
    intro capacity items hfits
    have hlt := lt_grownCapacity (of_decide_eq_true hfits)
    exact ⟨decide_eq_true (Nat.le_of_lt hlt), decide_eq_true hlt⟩
  key := by
    intro capacity keys values hfits
    have hlt := lt_grownCapacity (of_decide_eq_true hfits)
    exact ⟨decide_eq_true (Nat.le_of_lt hlt), decide_eq_true hlt, decide_eq_true hlt⟩

/-- What a list holds where everything has enough room. -/
theorem Heap.EverySize.size_le_capacity {h : Heap} (hroomy : h.EverySize Sizes.hasRoom)
    {id : NodeId} {l : ListNode} (hl : h.list? id = some l) : l.items.size ≤ l.capacity :=
  of_decide_eq_true (hroomy id _ (list?_eq_some_iff.mp hl))

/-! ## Making room -/

/-- **There is room when an item is pushed.** -/
theorem ListNode.lt_capacity_grown {l : ListNode} (hfits : l.items.size ≤ l.capacity) :
    l.grown.items.size < l.grown.capacity := by
  rw [Heap.items_grown, capacity_grown]
  exact lt_grownCapacity hfits

/-- Filling hollow objects does not look at the room. -/
theorem Datum.tree_filled (d : Datum) : d.filled.tree = d.tree.filled.tree := by
  have hall : ∀ {ds : List Datum}, (∀ d ∈ ds, d.filled.tree = d.tree.filled.tree) →
      trees (filledAll ds) = trees (filledAll (trees ds)) := by
    intro ds hds
    simp only [trees_eq_map, filledAll_eq_map, List.map_map]
    exact List.map_congr_left hds
  induction d using treeInduction with
  | list capacity items ih => simp only [filled, tree, hall ih]
  | object capacity keys values ihk ihv => simp only [filled, tree, hall ihk, hall ihv]
  | _ => rfl

namespace Heap

variable {h h' : Heap} {v : Value} {id : NodeId}

/-- A list that makes room holds the same tree. -/
theorem tree_viewWithin_grown {l : ListNode} (hl : h.nodes[id]? = some (.list l)) (depth : Nat)
    (v : Value) :
    ((h.put id (.list l.grown)).viewWithin depth v).tree = (h.viewWithin depth v).tree := by
  induction depth generalizing v with
  | zero => cases v <;> simp only [viewWithin]
  | succ depth ih =>
    have hall : ∀ values : Array Value,
        Datum.trees (values.toList.map ((h.put id (.list l.grown)).viewWithin depth))
          = Datum.trees (values.toList.map (h.viewWithin depth)) := by
      intro values
      simp only [Datum.trees_eq_map, List.map_map]
      exact List.map_congr_left fun w _ => ih w
    cases v with
    | list n =>
      by_cases hn : id = n
      · subst hn
        rw [viewWithin_list depth hl,
          viewWithin_list depth (getElem?_put_self _ (lt_size_of_getElem? hl))]
        simp only [Datum.tree, items_grown, hall]
      · simp only [viewWithin, getElem?_put_ne _ hn]
        split
        · simp only [Datum.tree, hall]
        · rfl
    | object n =>
      by_cases hn : id = n
      · subst hn
        simp only [viewWithin, hl, getElem?_put_self _ (lt_size_of_getElem? hl)]
      · simp only [viewWithin, getElem?_put_ne _ hn]
        split
        · simp only [Datum.tree, hall]
        · rfl
    | _ => simp only [viewWithin]

/-- **A copy that was appended** to a list. The list makes room before the value is copied, so
    the copy is one of the value as it is then. It holds the tree that the value had before, and
    it is a copy of the value as it was before, unless the value contains the list itself and
    the list was full. -/
structure AppendedCopy (h : Heap) (id : NodeId) (v : Value) (h' : Heap) (w : Value) : Prop where
  copy : (h.modifyList id .grown).CopyOf v h' w
  tree : (h'.view w).tree = (h.view v).filled.tree
  unlessFull : ∀ l, h.list? id = some l → ¬h.Reaches v id ∨ l.items.size < l.capacity →
    h.CopyOf v h' w

theorem CopyOf.appended {w : Value} {l : ListNode}
    (hcopy : (h.modifyList id .grown).CopyOf v h' w) (hs : h.Sound) (hv : h.Valid v)
    (hl : h.list? id = some l) : h.AppendedCopy id v h' w where
  copy := hcopy
  tree := by
    have hnode := list?_eq_some_iff.mp hl
    have hroom : ((h.modifyList id .grown).view v).tree = (h.view v).tree := by
      rw [modifyList_of_list hnode, view, view, size_put]
      exact tree_viewWithin_grown hnode h.nodes.size v
    rw [hcopy.contents, Datum.tree_filled, hroom, ← Datum.tree_filled]
  unlessFull := by
    intro l' hl' hcase
    rw [hl] at hl'
    cases hl'
    have hnode := list?_eq_some_iff.mp hl
    rw [modifyList_of_list hnode] at hcopy
    refine hcopy.of_view_eq (Nat.le_of_eq (size_put _ _).symm) ?_
    rcases hcase with hno | hspare
    · exact view_put_of_not_reaches hs hv hno _
    · have hstays : l.grown = l := if_pos hspare
      rw [hstays, put_of_getElem? hnode]

end Heap

end ValueRuntime
