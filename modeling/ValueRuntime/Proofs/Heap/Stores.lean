import ValueRuntime.Proofs.Heap.Change

/-! # Storing in lists and objects

    Appending to a list, replacing an item, and storing under a key of an object are changes
    of the heap. Each copies what it is given and places the copy in the container. Storing
    under a new key copies twice: the key is placed before the value is copied.
-/

namespace ValueRuntime

namespace Heap

variable {h h' : Heap}

/-! ## Lists -/

theorem item_of_list {id : NodeId} {l : ListNode} (hl : h.list? id = some l) (index : Nat) :
    h.item id index = (l.items[index]?).getD .nil := by
  simp only [item, hl, Option.bind_some]

/-- Making room keeps the items. What the list held in the room it left were its items. -/
theorem former_grown (l : ListNode) :
    ∀ v ∈ (Node.list l.grown).former, v ∈ (Node.list l).former ∨ v ∈ (Node.list l).stored := by
  intro v hv
  unfold ListNode.grown at hv
  split at hv
  · exact Or.inl hv
  · simp only [Node.former, Array.toList_push, List.flatMap_append, List.flatMap_cons,
      List.flatMap_nil, List.append_nil, List.mem_append] at hv
    exact hv

theorem items_grown (l : ListNode) : l.grown.items = l.items := by
  unfold ListNode.grown
  split <;> rfl

theorem change_grown (hs : h.Sound) {id : NodeId} {l : ListNode}
    (hl : h.nodes[id]? = some (.list l)) : Change h (h.put id (.list l.grown)) .nil := by
  refine Change.put hs hl trivial ?_ (former_grown l)
  intro p v hv
  cases p with
  | item index =>
    simp only [Node.at?, items_grown] at hv ⊢
    exact hv
  | key index => cases hv
  | value index => cases hv

/-- The items after one was pushed. -/
theorem at?_push (l : ListNode) (root : Value) (p : Place) (v : Value)
    (hv : (Node.list (l.push root)).at? p = some v) :
    (Node.list l).at? p = some v ∨ (p = .item l.items.size ∧ v = root) := by
  cases p with
  | item index =>
    exact (getElem?_push_cases hv).imp_right fun hlast => ⟨congrArg Place.item hlast.1, hlast.2⟩
  | key index => cases hv
  | value index => cases hv

/-- The items after one was replaced. -/
theorem at?_replace (l : ListNode) (index : Nat) (root : Value) (p : Place) (v : Value)
    (hv : (Node.list (l.replace index root)).at? p = some v) :
    (Node.list l).at? p = some v ∨ (p = .item index ∧ v = root) := by
  cases p with
  | item i =>
    exact (getElem?_setIfInBounds_cases hv).imp And.right fun hset =>
      ⟨congrArg Place.item hset.1, hset.2⟩
  | key i => cases hv
  | value i => cases hv

/-- **Appending** to a list, step by step: the list makes room, the value is copied, and the
    copy is pushed. -/
theorem append_of_list {id : NodeId} {l : ListNode} (hl : h.nodes[id]? = some (.list l))
    (v : Value) :
    h.append id v
      = ((h.put id (.list l.grown)).copy v).2.put id
          (.list (l.grown.push ((h.put id (.list l.grown)).copy v).1)) := by
  have hgrown : (h.put id (.list l.grown)).nodes[id]? = some (.list l.grown) :=
    getElem?_put_self _ (lt_size_of_getElem? hl)
  have hcopied := getElem?_copy_of_node hgrown v
  unfold append
  rw [modifyList_of_list hl, modifyList_of_list hcopied]

theorem Change.append (hs : h.Sound) {id : NodeId} (hid : h.Valid (.list id)) (v : Value) :
    Change h (h.append id v) .nil := by
  obtain ⟨l, hl⟩ := hid.list
  rw [append_of_list hl]
  have hgrown := change_grown hs hl
  have hcopy := hgrown.trans (Change.copy hgrown.sound v)
  have hlt : id < h.nodes.size := lt_size_of_getElem? hl
  have hnode := getElem?_copy_of_node (getElem?_put_self (.list l.grown) hlt) v
  exact hcopy.place hlt hnode trivial (.item l.grown.items.size)
    (at?_push l.grown _) (fun v hv => Or.inl hv)

/-- **Replacing an item** of a list: the value is copied, and the copy takes the place. Where
    there is no such item, nothing happens. -/
theorem replaceItem_cases (h : Heap) (id : NodeId) (index : Nat) (v : Value) :
    (∃ l, h.nodes[id]? = some (.list l) ∧ (h.replaceItem id index v).2
      = (h.copy v).2.put id (.list (l.replace index (h.copy v).1))) ∨
    (h.replaceItem id index v).2 = h := by
  unfold replaceItem
  split
  · next hany =>
    obtain ⟨l, hl, -⟩ := Option.any_eq_true _ _ |>.mp hany
    rw [list?_eq_some_iff] at hl
    exact .inl ⟨l, hl, modifyList_of_list (getElem?_copy_of_node hl v) _⟩
  · exact .inr rfl

theorem Change.replaceItem (hs : h.Sound) (id : NodeId) (index : Nat) (v : Value) :
    Change h (h.replaceItem id index v).2 .nil := by
  rcases replaceItem_cases h id index v with ⟨l, hl, hafter⟩ | hafter
  · rw [hafter]
    exact (Change.copy hs v).place (lt_size_of_getElem? hl) (getElem?_copy_of_node hl v) trivial
      (.item index) (at?_replace l index _) (fun v hv => Or.inl hv)
  · rw [hafter]
    exact Change.refl hs

/-! ## Objects -/

theorem at?_grown (o : ObjectNode) (p : Place) :
    (Node.object o.grown).at? p = (Node.object o).at? p := by
  cases p <;> rfl

/-- The object after a key was pushed. -/
theorem at?_pushKey (o : ObjectNode) (root : Value) (p : Place) (v : Value)
    (hv : (Node.object (o.pushKey root)).at? p = some v) :
    (Node.object o).at? p = some v ∨ (p = .key o.keys.size ∧ v = root) := by
  cases p with
  | item index => cases hv
  | key index =>
    exact (getElem?_push_cases hv).imp_right fun hlast => ⟨congrArg Place.key hlast.1, hlast.2⟩
  | value index => exact Or.inl hv

/-- The object after a value was pushed. -/
theorem at?_pushValue (o : ObjectNode) (root : Value) (p : Place) (v : Value)
    (hv : (Node.object (o.pushValue root)).at? p = some v) :
    (Node.object o).at? p = some v ∨ (p = .value o.values.size ∧ v = root) := by
  cases p with
  | item index => cases hv
  | key index => exact Or.inl hv
  | value index =>
    exact (getElem?_push_cases hv).imp_right fun hlast => ⟨congrArg Place.value hlast.1, hlast.2⟩

/-- The object after a value was replaced. -/
theorem at?_replaceValue (o : ObjectNode) (index : Nat) (root : Value) (p : Place) (v : Value)
    (hv : (Node.object (o.replaceValue index root)).at? p = some v) :
    (Node.object o).at? p = some v ∨ (p = .value index ∧ v = root) := by
  cases p with
  | item i => cases hv
  | key i => exact Or.inl hv
  | value i =>
    exact (getElem?_setIfInBounds_cases hv).imp And.right fun hset =>
      ⟨congrArg Place.value hset.1, hset.2⟩

/-- The heap after a new key was placed in an object, and before its value is copied. -/
def withKey (h : Heap) (id : NodeId) (o : ObjectNode) (key : Value) : Heap :=
  let storedKey := (h.put id (.object o.grown)).copy key
  storedKey.2.put id (.object (o.grown.pushKey storedKey.1))

/-- The object of `withKey`. -/
def keyed (h : Heap) (id : NodeId) (o : ObjectNode) (key : Value) : ObjectNode :=
  o.grown.pushKey ((h.put id (.object o.grown)).copy key).1

/-- **The ways to store in an object.** -/
theorem store_cases {id : NodeId} {key v : Value} (hst : h.store id key v = .ok h') :
    ∃ o, h.object? id = some o ∧
      ((∃ index, h.keyIndex? o key = some index ∧ index < o.values.size ∧
          h' = (h.copy v).2.put id (.object (o.replaceValue index (h.copy v).1))) ∨
        (h.keyIndex? o key = none ∧
          h' = ((h.withKey id o key).copy v).2.put id
            (.object ((h.keyed id o key).pushValue ((h.withKey id o key).copy v).1)))) := by
  unfold store at hst
  split at hst
  · cases hst
  · next o ho =>
    refine ⟨o, ho, ?_⟩
    split at hst
    · next index hindex =>
      split at hst
      · next hlt =>
        cases hst
        exact Or.inl ⟨index, hindex, hlt, rfl⟩
      · cases hst
    · next hnone =>
      cases hst
      exact Or.inr ⟨hnone, rfl⟩

/-- **The ways to fail to store in an object:** there is no object, or the key has no value
    to replace. -/
theorem store_error_cases {id : NodeId} {key v : Value} {fault : Fault}
    (hst : h.store id key v = .error fault) :
    (h.object? id = none ∧ fault = .noContents) ∨
      ∃ o index, h.object? id = some o ∧ h.keyIndex? o key = some index ∧
        o.values.size ≤ index ∧ fault = .indexOutOfRange index o.values.size := by
  unfold store at hst
  split at hst
  · next hnone =>
    cases hst
    exact Or.inl ⟨hnone, rfl⟩
  · next o ho =>
    split at hst
    · next index hindex =>
      split at hst
      · cases hst
      · next hge =>
        cases hst
        exact Or.inr ⟨o, index, ho, hindex, Nat.le_of_not_lt hge, rfl⟩
    · cases hst

variable {id : NodeId} {o : ObjectNode}

theorem getElem?_copied_key (ho : h.nodes[id]? = some (.object o)) (key : Value) :
    ((h.put id (.object o.grown)).copy key).2.nodes[id]? = some (.object o.grown) :=
  getElem?_copy_of_node (getElem?_put_self _ (lt_size_of_getElem? ho)) key

theorem getElem?_withKey (ho : h.nodes[id]? = some (.object o)) (key : Value) :
    (h.withKey id o key).nodes[id]? = some (.object (h.keyed id o key)) :=
  getElem?_put_self _ (lt_size_of_getElem? (getElem?_copied_key ho key))

theorem change_grown_object (hs : h.Sound) (ho : h.nodes[id]? = some (.object o)) :
    Change h (h.put id (.object o.grown)) .nil := by
  refine Change.put hs ho (List.prefix_refl _) ?_ (fun v hv => Or.inl hv)
  intro p v hv
  rw [at?_grown] at hv
  exact hv

/-- Placing the key. -/
theorem Change.withKey (hs : h.Sound) (ho : h.nodes[id]? = some (.object o)) (key : Value) :
    Change h (h.withKey id o key) .nil := by
  have hgrown := change_grown_object hs ho
  have hcopy := hgrown.trans (Change.copy hgrown.sound key)
  refine hcopy.place (lt_size_of_getElem? ho) (getElem?_copied_key ho key) ?_
    (.key o.grown.keys.size) (at?_pushKey o.grown _) (fun v hv => Or.inl hv)
  show o.grown.keys.toList <+: (o.grown.keys.push _).toList
  rw [Array.toList_push]
  exact List.prefix_append _ _

theorem Change.store {key v : Value} (hs : h.Sound) (hst : h.store id key v = .ok h') :
    Change h h' .nil := by
  obtain ⟨o, ho, ⟨index, -, -, rfl⟩ | ⟨-, rfl⟩⟩ := store_cases hst
  · rw [object?_eq_some_iff] at ho
    exact (Change.copy hs v).place (lt_size_of_getElem? ho) (getElem?_copy_of_node ho v)
      (List.prefix_refl _) (.value index) (at?_replaceValue o index _) (fun v hv => Or.inl hv)
  · rw [object?_eq_some_iff] at ho
    have hkey := Change.withKey hs ho key
    have hkeyed := getElem?_withKey ho key
    have hgrow : (Node.object (h.keyed id o key)).Grows
        (.object ((h.keyed id o key).pushValue ((h.withKey id o key).copy v).1)) :=
      List.prefix_refl _
    have hvalue := (Change.copy hkey.sound v).place (lt_size_of_getElem? hkeyed)
      (getElem?_copy_of_node hkeyed v) hgrow
      (.value (h.keyed id o key).values.size) (at?_pushValue _ _) (fun v hv => Or.inl hv)
    exact hkey.trans hvalue

/-- What a single store may do, a sequence of stores may do. -/
theorem Change.storeAll {pairs : List (Value × Value)} (hs : h.Sound)
    (hst : h.storeAll id pairs = .ok h') : Change h h' .nil := by
  induction pairs generalizing h with
  | nil =>
    cases hst
    exact Change.refl hs
  | cons pair rest ih =>
    obtain ⟨key, v⟩ := pair
    simp only [Heap.storeAll] at hst
    cases hfirst : h.store id key v with
    | error fault =>
      rw [hfirst] at hst
      cases hst
    | ok h₁ =>
      rw [hfirst] at hst
      have hchange := Change.store hs hfirst
      exact hchange.trans (ih hchange.sound hst)

theorem Change.newObject (hs : h.Sound) :
    Change h h.newObject.2 (.object h.newObject.1) :=
  Change.add hs (.object .empty) rfl rfl rfl trivial

theorem objectOf_eq_ok {keys values : List Value} {v : Value}
    (hob : h.objectOf keys values = .ok (v, h')) :
    v = .object h.nodes.size ∧
      h.newObject.2.storeAll h.nodes.size (pairUp keys values) = .ok h' := by
  unfold objectOf at hob
  simp only [Heap.newObject, Heap.add] at hob ⊢
  cases hall : (Heap.mk (h.nodes.push (.object .empty))).storeAll h.nodes.size
      (pairUp keys values) with
  | error fault =>
    rw [hall] at hob
    cases hob
  | ok h₁ =>
    rw [hall] at hob
    cases hob
    exact ⟨rfl, rfl⟩

/-- **Building an object** is a change that hands it out. What was stored in it meanwhile are
    copies, so it is stored nowhere. -/
theorem Change.objectOf {keys values : List Value} {v : Value} (hs : h.Sound)
    (hob : h.objectOf keys values = .ok (v, h')) : Change h h' v := by
  obtain ⟨rfl, hall⟩ := objectOf_eq_ok hob
  have hnew := Change.newObject hs
  exact hnew.keepRoot (Change.storeAll hnew.sound hall)

end Heap

end ValueRuntime
