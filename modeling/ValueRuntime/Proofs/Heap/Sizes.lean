import ValueRuntime.Proofs.Datum.Every
import ValueRuntime.Proofs.Heap.Stores
import ValueRuntime.Proofs.Results

/-! # Sizes of containers

    How much a list or an object holds and how much it has room for are its *sizes*. A condition
    on sizes is one on the nodes of a heap and on the containers of a datum at once: what is read
    off a heap has the sizes of its nodes, and what is laid out in nodes has the sizes of the
    datum. So copying keeps every such condition.

    Beyond that the operations change sizes in few ways. A list makes room and gets an item; an
    object makes room, gets a key and then a value. A condition that these steps keep is called
    *lasting*, and every operation of the heap keeps it.
-/

namespace ValueRuntime

/-! ## Room -/

section Room

variable {capacity length : Nat}

theorem capacityAfter_succ (capacity length added : Nat) :
    capacityAfter capacity length (added + 1)
      = grownCapacity (capacityAfter capacity length added) (length + added) := by
  induction added generalizing capacity length with
  | zero => rfl
  | succ added ih =>
    rw [capacityAfter, ih, capacityAfter]
    congr 1
    omega

/-- **One more entry fits** after room was made for it. -/
theorem lt_grownCapacity (hfits : length ≤ capacity) : length < grownCapacity capacity length := by
  unfold grownCapacity defaultCapacity
  split
  · assumption
  · split <;> omega

theorem le_capacityAfter (hfits : length ≤ capacity) (added : Nat) :
    length + added ≤ capacityAfter capacity length added := by
  induction added with
  | zero => exact hfits
  | succ added ih =>
    rw [capacityAfter_succ]
    exact lt_grownCapacity ih

/-- The room of a list that was filled from the start. -/
theorem le_capacityAfter_default (count : Nat) : count ≤ capacityAfter defaultCapacity 0 count := by
  have hle := le_capacityAfter (Nat.zero_le defaultCapacity) count
  rwa [Nat.zero_add] at hle

theorem ListNode.capacity_grown (l : ListNode) :
    l.grown.capacity = grownCapacity l.capacity l.items.size := by
  unfold grown
  split
  · next hspare => rw [grownCapacity, if_pos hspare]
  · rfl

end Room

/-! ## Sizes -/

/-- **The sizes of a container:** the entries it has room for and those it holds. -/
inductive Sizes where
  | list (capacity items : Nat)
  | object (capacity keys values : Nat)

/-- The sizes of a node. An object without contents has none. -/
def Node.sizes? : Node → Option Sizes
  | .list l => some (.list l.capacity l.items.size)
  | .object o => some (.object o.capacity o.keys.size o.values.size)
  | .hollow => none

/-- A node whose sizes meet a condition. -/
def Node.Meets (p : Sizes → Bool) (node : Node) : Prop := node.sizes?.all p = true

theorem Node.meets_list_iff {p : Sizes → Bool} {l : ListNode} :
    (Node.list l).Meets p ↔ p (.list l.capacity l.items.size) = true := Iff.rfl

theorem Node.meets_object_iff {p : Sizes → Bool} {o : ObjectNode} :
    (Node.object o).Meets p ↔ p (.object o.capacity o.keys.size o.values.size) = true := Iff.rfl

namespace Datum

/-- The sizes of a container, not counting what is inside its entries. -/
def sizes? : Datum → Option Sizes
  | .list capacity items => some (.list capacity items.length)
  | .object capacity keys values => some (.object capacity keys.length values.length)
  | _ => none

/-- Whether a condition holds of the sizes of every container in a datum. -/
def everySize (p : Sizes → Bool) : Datum → Bool := every fun d => d.sizes?.all p

variable {p : Sizes → Bool}

theorem everySize_list_iff (capacity : Nat) (items : List Datum) :
    (Datum.list capacity items).everySize p = true ↔
      p (.list capacity items.length) = true ∧ ∀ d ∈ items, d.everySize p = true :=
  every_list_iff _ capacity items

theorem everySize_object_iff (capacity : Nat) (keys values : List Datum) :
    (Datum.object capacity keys values).everySize p = true ↔
      p (.object capacity keys.length values.length) = true ∧
        (∀ d ∈ keys, d.everySize p = true) ∧ ∀ d ∈ values, d.everySize p = true :=
  every_object_iff _ capacity keys values

end Datum

namespace Heap

variable {h h' : Heap} {P : Node → Prop} {p : Sizes → Bool} {id : NodeId} {v : Value}

/-! ## Conditions on every node -/

/-- Every node of a heap meets a condition. -/
def Every (P : Node → Prop) (h : Heap) : Prop :=
  ∀ (id : NodeId) (node : Node), h.nodes[id]? = some node → P node

theorem every_empty : Heap.empty.Every P := by
  intro id node hnode
  simp [Heap.empty] at hnode

theorem every_add_iff {node : Node} (hnode : P node) : (h.add node).2.Every P ↔ h.Every P := by
  constructor
  · intro hall id other hother
    refine hall id other ?_
    have hlt : id < h.nodes.size := lt_size_of_getElem? hother
    show (h.nodes.push node)[id]? = some other
    rw [Array.getElem?_push_lt hlt, ← Array.getElem?_eq_getElem hlt]
    exact hother
  · intro hall id other hother
    rcases getElem?_push_cases hother with hold | ⟨-, rfl⟩
    · exact hall id other hold
    · exact hnode

theorem Every.put (hall : h.Every P) {node : Node} (hnode : P node) (id : NodeId) :
    (h.put id node).Every P := by
  intro n other hother
  rcases getElem?_setIfInBounds_cases hother with ⟨-, hold⟩ | ⟨-, rfl⟩
  · exact hall n other hold
  · exact hnode

/-- A replaced node changes nothing when the old and the new one agree on the condition. -/
theorem every_put_iff {node : Node} (node' : Node) (hnode : h.nodes[id]? = some node)
    (hsame : P node' ↔ P node) : (h.put id node').Every P ↔ h.Every P := by
  have hlt : id < h.nodes.size := lt_size_of_getElem? hnode
  constructor
  · intro hall n other hother
    by_cases hn : id = n
    · subst hn
      rw [hnode] at hother
      cases hother
      exact hsame.mp (hall id node' (getElem?_put_self node' hlt))
    · exact hall n other (by rw [getElem?_put_ne node' hn]; exact hother)
  · intro hall
    exact hall.put (hsame.mpr (hall id node hnode)) id

theorem every_alloc_iff (d : Datum) :
    (h.alloc d).2.Every P ↔ h.Every P ∧ ∀ node ∈ h.allocated d, P node := by
  constructor
  · intro hall
    constructor
    · intro id node hnode
      exact hall id node (by rw [getElem?_alloc_old h d (lt_size_of_getElem? hnode)]; exact hnode)
    · intro node hnode
      obtain ⟨i, hi⟩ := List.getElem?_of_mem hnode
      exact hall (h.nodes.size + i) node (by rw [getElem?_alloc_new]; exact hi)
  · rintro ⟨hold, hnew⟩ id node hnode
    rw [getElem?_alloc] at hnode
    split at hnode
    · exact hold id node hnode
    · exact hnew node (List.mem_of_getElem? hnode)

/-! ## Reading and laying out -/

/-- The sizes of all nodes meet a condition. -/
def EverySize (p : Sizes → Bool) (h : Heap) : Prop := h.Every (Node.Meets p)

/-- **What is read off a heap** has the sizes of its nodes, to whatever depth it is read. -/
theorem EverySize.viewWithin (hall : h.EverySize p) (depth : Nat) (v : Value) :
    (h.viewWithin depth v).everySize p = true := by
  -- What lies deeper is left out, so this does not need a sound heap.
  induction depth generalizing v with
  | zero => cases v <;> rfl
  | succ depth ih =>
    have hinside : ∀ values : Array Value,
        ∀ d ∈ values.toList.map (h.viewWithin depth), d.everySize p = true :=
      fun values => List.forall_mem_map.mpr fun w _ => ih w
    cases v with
    | list id =>
      rw [Heap.viewWithin]
      split
      · next l hl =>
        rw [Datum.everySize_list_iff, List.length_map, Array.length_toList]
        exact ⟨hall id _ hl, hinside l.items⟩
      · rfl
    | object id =>
      rw [Heap.viewWithin]
      split
      · next o ho =>
        rw [Datum.everySize_object_iff, List.length_map, List.length_map, Array.length_toList,
          Array.length_toList]
        exact ⟨hall id _ ho, hinside o.keys, hinside o.values⟩
      · rfl
    | _ => rfl

theorem EverySize.view (hall : h.EverySize p) (v : Value) : (h.view v).everySize p = true :=
  hall.viewWithin h.nodes.size v

theorem length_layoutAll (base : Nat) (ds : List Datum) :
    (layoutAll base ds).result.length = ds.length := by
  induction ds generalizing base with
  | nil => rfl
  | cons d rest ih => simp only [layoutAll, List.length_cons, ih]

/-- The nodes for several data meet a condition when the nodes for each of them do. -/
theorem everySize_layoutAll_iff {ds : List Datum}
    (hds : ∀ d ∈ ds, ∀ base, (∀ node ∈ (layout base d).nodes, node.Meets p) ↔
      d.everySize p = true) (base : Nat) :
    (∀ node ∈ (layoutAll base ds).nodes, node.Meets p) ↔ ∀ d ∈ ds, d.everySize p = true := by
  induction ds generalizing base with
  | nil => exact iff_of_true (fun _ hmem => by cases hmem) (fun _ hmem => by cases hmem)
  | cons d rest ih =>
    rw [nodes_layoutAll_cons, List.forall_mem_append, List.forall_mem_cons,
      hds d List.mem_cons_self base, ih (fun e he => hds e (List.mem_cons_of_mem d he))]

/-- **The nodes for a datum** have the sizes of the datum. An object without contents becomes
    an empty one. -/
theorem everySize_layout_iff (hempty : p (.object defaultCapacity 0 0) = true) (d : Datum)
    (base : Nat) :
    (∀ node ∈ (layout base d).nodes, node.Meets p) ↔ d.everySize p = true := by
  induction d using Datum.treeInduction generalizing base with
  | list capacity items ih =>
    rw [nodes_layout_list, List.forall_mem_cons, everySize_layoutAll_iff ih,
      Datum.everySize_list_iff]
    refine and_congr_left fun _ => ?_
    rw [Node.meets_list_iff]
    simp only [ListNode.of, List.size_toArray, length_layoutAll]
  | object capacity keys values ihk ihv =>
    rw [nodes_layout_object, List.forall_mem_cons, List.forall_mem_append,
      everySize_layoutAll_iff ihk, everySize_layoutAll_iff ihv, Datum.everySize_object_iff]
    refine and_congr_left fun _ => ?_
    rw [Node.meets_object_iff]
    simp only [List.size_toArray, length_layoutAll]
  | hollow =>
    refine iff_of_true ?_ rfl
    intro node hnode
    rw [List.mem_singleton.mp hnode]
    exact hempty
  | _ => exact iff_of_true (fun _ hmem => by cases hmem) rfl

theorem everySize_alloc_iff (hempty : p (.object defaultCapacity 0 0) = true) (d : Datum) :
    (h.alloc d).2.EverySize p ↔ h.EverySize p ∧ d.everySize p = true :=
  (every_alloc_iff d).trans (and_congr_right fun _ => everySize_layout_iff hempty d h.nodes.size)

end Heap

/-! ## Lasting conditions -/

/-- **A condition that lasts.** New lists and objects meet it, and it is kept when a list makes
    room and gets an item, and when an object makes room, gets a key, and then its value. -/
structure Sizes.Lasting (p : Sizes → Bool) : Prop where
  /-- A list with enough room for its items. -/
  list : ∀ {capacity items}, items ≤ capacity → p (.list capacity items) = true
  /-- An object that was filled pair by pair. -/
  object : ∀ count, p (.object (capacityAfter defaultCapacity 0 count) count count) = true
  /-- The keys of an object as a list. -/
  keyList : ∀ {capacity keys values}, p (.object capacity keys values) = true →
    p (.list capacity keys) = true
  item : ∀ {capacity items}, p (.list capacity items) = true →
    p (.list (grownCapacity capacity items) items) = true ∧
      p (.list (grownCapacity capacity items) (items + 1)) = true
  key : ∀ {capacity keys values}, p (.object capacity keys values) = true →
    p (.object (grownCapacity capacity keys) keys values) = true ∧
      p (.object (grownCapacity capacity keys) (keys + 1) values) = true ∧
        p (.object (grownCapacity capacity keys) (keys + 1) (values + 1)) = true

namespace Heap

variable {h h' : Heap} {p : Sizes → Bool} {id : NodeId} {v : Value}

theorem EverySize.alloc (hall : h.EverySize p) (hp : Sizes.Lasting p) {d : Datum}
    (hd : d.everySize p = true) : (h.alloc d).2.EverySize p :=
  (everySize_alloc_iff (hp.object 0) d).mpr ⟨hall, hd⟩

theorem EverySize.copy (hall : h.EverySize p) (hp : Sizes.Lasting p) (v : Value) :
    (h.copy v).2.EverySize p :=
  hall.alloc hp (hall.view v)

theorem EverySize.append (hall : h.EverySize p) (hp : Sizes.Lasting p)
    (hid : h.Valid (.list id)) (v : Value) : (h.append id v).EverySize p := by
  obtain ⟨l, hl⟩ := hid.list
  obtain ⟨hroom, hmore⟩ := hp.item (hall id _ hl)
  have hgrown : (Node.list l.grown).Meets p := by
    rw [Node.meets_list_iff, ListNode.capacity_grown, items_grown]
    exact hroom
  have hpushed : ∀ w, (Node.list (l.grown.push w)).Meets p := by
    intro w
    rw [Node.meets_list_iff, ListNode.push, ListNode.capacity_grown, items_grown, Array.size_push]
    exact hmore
  rw [append_of_list hl]
  have hmade : (h.put id (.list l.grown)).EverySize p := Every.put hall hgrown id
  exact (hmade.copy hp v).put (hpushed _) id

theorem EverySize.replaceItem (hall : h.EverySize p) (hp : Sizes.Lasting p) (id : NodeId)
    (index : Nat) (v : Value) : (h.replaceItem id index v).2.EverySize p := by
  rcases replaceItem_cases h id index v with ⟨l, hl, hafter⟩ | hafter
  · have hreplaced : (Node.list (l.replace index (h.copy v).1)).Meets p := by
      rw [Node.meets_list_iff, ListNode.replace, Array.size_setIfInBounds]
      exact hall id _ hl
    rw [hafter]
    exact (hall.copy hp v).put hreplaced id
  · rw [hafter]
    exact hall

theorem EverySize.store (hall : h.EverySize p) (hp : Sizes.Lasting p) {key : Value}
    (hst : h.store id key v = .ok h') : h'.EverySize p := by
  obtain ⟨o, ho, ⟨index, -, -, rfl⟩ | ⟨-, rfl⟩⟩ := store_cases hst
  · have hreplaced : (Node.object (o.replaceValue index (h.copy v).1)).Meets p := by
      rw [Node.meets_object_iff, ObjectNode.replaceValue, Array.size_setIfInBounds]
      exact hall id _ (object?_eq_some_iff.mp ho)
    exact (hall.copy hp v).put hreplaced id
  · -- Between the key and its value the object has a key too many, and then the value is copied.
    obtain ⟨hroom, hkey, hvalue⟩ := hp.key (hall id _ (object?_eq_some_iff.mp ho))
    have hgrown : (Node.object o.grown).Meets p := hroom
    have hkeyed : (Node.object (h.keyed id o key)).Meets p := by
      rw [Node.meets_object_iff, keyed, ObjectNode.pushKey, Array.size_push]
      exact hkey
    have hpaired : ∀ w, (Node.object ((h.keyed id o key).pushValue w)).Meets p := by
      intro w
      rw [Node.meets_object_iff, ObjectNode.pushValue, keyed, ObjectNode.pushKey, Array.size_push,
        Array.size_push]
      exact hvalue
    have hmade : (h.put id (.object o.grown)).EverySize p := Every.put hall hgrown id
    have hwithKey : (h.withKey id o key).EverySize p := (hmade.copy hp key).put hkeyed id
    exact (hwithKey.copy hp v).put (hpaired _) id

theorem EverySize.storeAll (hall : h.EverySize p) (hp : Sizes.Lasting p)
    {pairs : List (Value × Value)} (hst : h.storeAll id pairs = .ok h') : h'.EverySize p := by
  induction pairs generalizing h with
  | nil =>
    cases hst
    exact hall
  | cons pair rest ih =>
    obtain ⟨h₁, hfirst, hrest⟩ := bind_eq_ok hst
    exact ih (hall.store hp hfirst) hrest

theorem EverySize.objectOf (hall : h.EverySize p) (hp : Sizes.Lasting p) {keys values : List Value}
    (hob : h.objectOf keys values = .ok (v, h')) : h'.EverySize p := by
  obtain ⟨-, hpairs⟩ := objectOf_eq_ok hob
  have hempty : (Node.object .empty).Meets p := hp.object 0
  have hnew : h.newObject.2.EverySize p := (every_add_iff hempty).mpr hall
  exact hnew.storeAll hp hpairs

end Heap

end ValueRuntime
