import Mathlib.Logic.Relation
import ValueRuntime.Heap.Lists
import ValueRuntime.Heap.Objects

/-! # The heap as a graph

    A node has *places* where values are stored: the items of a list, and the keys and the
    values of an object. A stored value that refers to a node is an edge of the graph.

    A heap is *sound* when every stored value refers to an existing node of its own kind and
    edges only lead to later nodes. Soundness is what keeps every chain of containers finite.
-/

namespace ValueRuntime

/-! ## Arrays -/

section Arrays

variable {α : Type} {xs : Array α} {a b : α} {index i : Nat}

/-- What an array holds after a push was there before or is what was pushed. -/
theorem getElem?_push_cases (hb : (xs.push a)[i]? = some b) :
    xs[i]? = some b ∨ (i = xs.size ∧ b = a) := by
  rw [Array.getElem?_push] at hb
  split at hb
  · next heq =>
    cases hb
    exact .inr ⟨heq, rfl⟩
  · exact .inl hb

/-- What an array holds after a replacement was there before or is what took the place. -/
theorem getElem?_setIfInBounds_cases (hb : (xs.setIfInBounds index a)[i]? = some b) :
    (index ≠ i ∧ xs[i]? = some b) ∨ (i = index ∧ b = a) := by
  rw [Array.getElem?_setIfInBounds] at hb
  split at hb
  · next heq =>
    split at hb
    · cases hb
      exact .inr ⟨heq.symm, rfl⟩
    · cases hb
  · next hne => exact .inl ⟨hne, hb⟩

end Arrays

/-! ## References and places -/

/-- The node that a value refers to. -/
def Value.node? : Value → Option NodeId
  | .list id => some id
  | .object id => some id
  | _ => none

/-- A place of a node where a value can be stored. -/
inductive Place where
  | item (index : Nat)
  | key (index : Nat)
  | value (index : Nat)
  deriving DecidableEq, Repr

namespace Node

/-- What a node stores at a place. -/
def at? : Node → Place → Option Value
  | .list l, .item index => l.items[index]?
  | .object o, .key index => o.keys[index]?
  | .object o, .value index => o.values[index]?
  | _, _ => none

/-- The stored values of a node, place by place. -/
def stored : Node → List Value
  | .list l => l.items.toList
  | .object o => o.keys.toList ++ o.values.toList
  | .hollow => []

/-- The values in the rooms that a list has left. Only walks still read them. -/
def former : Node → List Value
  | .list l => l.former.toList.flatMap (·.toList)
  | _ => []

/-- Whether a value of a node's kind refers to it. -/
def Fits : Node → Value → Prop
  | .list _, .list _ => True
  | .object _, .object _ => True
  | .hollow, .object _ => True
  | _, _ => False

/-- **What a node may become.** It keeps its kind, and an object keeps its keys at their
    places. -/
def Grows : Node → Node → Prop
  | .list _, .list _ => True
  | .object o, .object o' => o.keys.toList <+: o'.keys.toList
  | .hollow, .hollow => True
  | _, _ => False

theorem mem_stored_iff (node : Node) (v : Value) :
    v ∈ node.stored ↔ ∃ p, node.at? p = some v := by
  cases node with
  | list l =>
    simp only [stored, Array.mem_toList_iff, Array.mem_iff_getElem?]
    constructor
    · rintro ⟨index, hindex⟩
      exact ⟨.item index, hindex⟩
    · rintro ⟨p, hp⟩
      cases p with
      | item index => exact ⟨index, hp⟩
      | key index => cases hp
      | value index => cases hp
  | object o =>
    simp only [stored, List.mem_append, Array.mem_toList_iff, Array.mem_iff_getElem?]
    constructor
    · rintro (⟨index, hindex⟩ | ⟨index, hindex⟩)
      · exact ⟨.key index, hindex⟩
      · exact ⟨.value index, hindex⟩
    · rintro ⟨p, hp⟩
      cases p with
      | item index => cases hp
      | key index => exact Or.inl ⟨index, hp⟩
      | value index => exact Or.inr ⟨index, hp⟩
  | hollow =>
    constructor
    · intro h
      cases h
    · rintro ⟨p, hp⟩
      cases p <;> cases hp

theorem Grows.refl (node : Node) : node.Grows node := by
  cases node <;> simp [Grows]

theorem Grows.trans {a b c : Node} (hab : a.Grows b) (hbc : b.Grows c) : a.Grows c := by
  cases a <;> cases b <;> cases c <;> simp_all only [Grows]
  exact hab.trans hbc

theorem Grows.fits {a b : Node} {v : Value} (h : a.Grows b) (hv : a.Fits v) : b.Fits v := by
  cases a <;> cases b <;> cases v <;> simp_all [Grows, Fits]

/-- A value that fits a list is the list. -/
theorem Fits.eq_list {l : ListNode} {v : Value} {id : NodeId} (h : (Node.list l).Fits v)
    (hid : v.node? = some id) : v = .list id := by
  cases v <;> simp_all [Fits, Value.node?]

/-- A value that fits an object is the object. -/
theorem Fits.eq_object {o : ObjectNode} {v : Value} {id : NodeId} (h : (Node.object o).Fits v)
    (hid : v.node? = some id) : v = .object id := by
  cases v <;> simp_all [Fits, Value.node?]

/-- A value that fits a hollow object is the object. -/
theorem Fits.eq_hollow {v : Value} {id : NodeId} (h : Node.hollow.Fits v)
    (hid : v.node? = some id) : v = .object id := by
  cases v <;> simp_all [Fits, Value.node?]

end Node

namespace Heap

variable {h h' h'' : Heap}

/-- What the heap stores at a place of a node. -/
def at? (h : Heap) (id : NodeId) (p : Place) : Option Value :=
  (h.nodes[id]?).bind (·.at? p)

/-- An edge: a value stored in the first node refers to the second. -/
def Child (h : Heap) (a b : NodeId) : Prop :=
  ∃ p v, h.at? a p = some v ∧ v.node? = some b

/-- **A value reaches a node** when it refers to it directly or through containers. -/
def Reaches (h : Heap) (v : Value) (n : NodeId) : Prop :=
  ∃ root, v.node? = some root ∧ Relation.ReflTransGen h.Child root n

/-- **A valid value** is a scalar or refers to a node of its own kind. -/
def Valid (h : Heap) (v : Value) : Prop :=
  ∀ id, v.node? = some id → ∃ node, h.nodes[id]? = some node ∧ node.Fits v

/-- **A sound heap.** -/
structure Sound (h : Heap) : Prop where
  /-- Stored values are valid. -/
  stored : ∀ a p v, h.at? a p = some v → h.Valid v
  /-- Edges lead to later nodes. -/
  ascending : ∀ a b : Nat, h.Child a b → a < b
  /-- What a list held in a room it has left is valid. -/
  former : ∀ (a : NodeId) (node : Node), h.nodes[a]? = some node → ∀ v ∈ node.former, h.Valid v

/-- A later heap: every node is still there, and may have grown. -/
def Extends (h h' : Heap) : Prop :=
  ∀ (id : NodeId) (node : Node), h.nodes[id]? = some node →
    ∃ node', h'.nodes[id]? = some node' ∧ node.Grows node'

/-! ## Lookups -/

theorem lt_size_of_getElem? {id : Nat} {node : Node} (hnode : h.nodes[id]? = some node) :
    id < h.nodes.size := by
  rcases Nat.lt_or_ge id h.nodes.size with hlt | hge
  · exact hlt
  · rw [Array.getElem?_eq_none hge] at hnode
    cases hnode

theorem exists_node_of_at? {id : NodeId} {p : Place} {v : Value} (hv : h.at? id p = some v) :
    ∃ node, h.nodes[id]? = some node ∧ node.at? p = some v :=
  Option.bind_eq_some_iff.mp hv

theorem at?_of_node {id : NodeId} {node : Node} (hnode : h.nodes[id]? = some node) (p : Place) :
    h.at? id p = node.at? p := by
  simp [at?, hnode]

theorem list?_eq_some_iff {id : NodeId} {l : ListNode} :
    h.list? id = some l ↔ h.nodes[id]? = some (.list l) := by
  unfold list?
  split
  · next contents hnode => simp [hnode]
  · next hno =>
    constructor
    · intro habs
      cases habs
    · intro hnode
      exact absurd hnode (hno l)

theorem object?_eq_some_iff {id : NodeId} {o : ObjectNode} :
    h.object? id = some o ↔ h.nodes[id]? = some (.object o) := by
  unfold object?
  split
  · next contents hnode => simp [hnode]
  · next hno =>
    constructor
    · intro habs
      cases habs
    · intro hnode
      exact absurd hnode (hno o)

theorem getElem?_put (id n : NodeId) (node : Node) :
    (h.put id node).nodes[n]?
      = if id = n then if id < h.nodes.size then some node else none else h.nodes[n]? :=
  Array.getElem?_setIfInBounds

@[simp] theorem size_put (id : NodeId) (node : Node) :
    (h.put id node).nodes.size = h.nodes.size :=
  Array.size_setIfInBounds

theorem getElem?_put_self {id : NodeId} (node : Node) (hid : id < h.nodes.size) :
    (h.put id node).nodes[id]? = some node := by
  rw [getElem?_put, if_pos rfl, if_pos hid]

theorem getElem?_put_ne {id n : NodeId} (node : Node) (hne : id ≠ n) :
    (h.put id node).nodes[n]? = h.nodes[n]? := by
  rw [getElem?_put, if_neg hne]

/-- Changing a list is replacing its node. -/
theorem modifyList_of_list {id : NodeId} {l : ListNode} (hl : h.nodes[id]? = some (.list l))
    (change : ListNode → ListNode) : h.modifyList id change = h.put id (.list (change l)) := by
  unfold modifyList put
  congr 1
  apply Array.ext_getElem?
  intro n
  rw [Array.getElem?_modify, Array.getElem?_setIfInBounds]
  by_cases hn : id = n
  · have hlt : id < h.nodes.size := lt_size_of_getElem? hl
    rw [if_pos hn, if_pos hn, if_pos hlt, ← hn, hl]
    rfl
  · rw [if_neg hn, if_neg hn]

/-! ## Later heaps -/

theorem Extends.refl (h : Heap) : h.Extends h := by
  intro id node hnode
  exact ⟨node, hnode, Node.Grows.refl node⟩

theorem Extends.trans (h₁ : h.Extends h') (h₂ : h'.Extends h'') : h.Extends h'' := by
  intro id node hnode
  obtain ⟨node', hnode', hgrow⟩ := h₁ id node hnode
  obtain ⟨node'', hnode'', hgrow'⟩ := h₂ id node' hnode'
  exact ⟨node'', hnode'', hgrow.trans hgrow'⟩

theorem Extends.size_le (hext : h.Extends h') : h.nodes.size ≤ h'.nodes.size := by
  rcases Nat.lt_or_ge h'.nodes.size h.nodes.size with hlt | hge
  · obtain ⟨node', hnode', -⟩ := hext h'.nodes.size _ (Array.getElem?_eq_getElem hlt)
    have := lt_size_of_getElem? hnode'
    omega
  · exact hge

theorem Extends.valid (hext : h.Extends h') {v : Value} (hv : h.Valid v) : h'.Valid v := by
  intro id hid
  obtain ⟨node, hnode, hfits⟩ := hv id hid
  obtain ⟨node', hnode', hgrow⟩ := hext id node hnode
  exact ⟨node', hnode', hgrow.fits hfits⟩

/-- An object of a heap is an object of a later heap, and its keys are at their places. -/
theorem Extends.object (hext : h.Extends h') {id : NodeId} {o : ObjectNode}
    (ho : h.object? id = some o) :
    ∃ o', h'.object? id = some o' ∧ o.keys.toList <+: o'.keys.toList := by
  obtain ⟨node', hnode', hgrow⟩ := hext id _ (object?_eq_some_iff.mp ho)
  cases node' with
  | list l => exact absurd hgrow (by simp [Node.Grows])
  | object o' => exact ⟨o', object?_eq_some_iff.mpr hnode', hgrow⟩
  | hollow => exact absurd hgrow (by simp [Node.Grows])

/-- A key stays at its place. -/
theorem Extends.key (hext : h.Extends h') {id : NodeId} {index : Nat} {k : Value}
    (hk : h.at? id (.key index) = some k) : h'.at? id (.key index) = some k := by
  obtain ⟨node, hnode, hat⟩ := exists_node_of_at? hk
  cases node with
  | list l => cases hat
  | hollow => cases hat
  | object o =>
    obtain ⟨o', ho', more, hmore⟩ := hext.object (object?_eq_some_iff.mpr hnode)
    have hold : o.keys.toList[index]? = some k := by
      rw [Array.getElem?_toList]
      exact hat
    rw [at?_of_node (object?_eq_some_iff.mp ho')]
    show o'.keys[index]? = some k
    rw [← Array.getElem?_toList, ← hmore,
      List.getElem?_append_left (List.getElem?_eq_some_iff.mp hold).1]
    exact hold

/-! ## Valid values -/

theorem valid_of_node?_eq_none {v : Value} (hv : v.node? = none) : h.Valid v := by
  intro id hid
  rw [hv] at hid
  cases hid

@[simp] theorem valid_nil : h.Valid .nil := valid_of_node?_eq_none rfl
@[simp] theorem valid_boolean (b : Bool) : h.Valid (.boolean b) := valid_of_node?_eq_none rfl
@[simp] theorem valid_number (x : Number) : h.Valid (.number x) := valid_of_node?_eq_none rfl
@[simp] theorem valid_string (s : Bytes) : h.Valid (.string s) := valid_of_node?_eq_none rfl
@[simp] theorem valid_function (f : Option CallableId) : h.Valid (.function f) :=
  valid_of_node?_eq_none rfl

theorem Valid.lt_size {v : Value} (hv : h.Valid v) {n : Nat} (hn : v.node? = some n) :
    n < h.nodes.size := by
  obtain ⟨node, hnode, -⟩ := hv n hn
  exact lt_size_of_getElem? hnode

/-- A sound heap stores no node that does not exist. -/
theorem Sound.stored_lt_size (hs : h.Sound) {a : NodeId} {p : Place} {v : Value} {n : Nat}
    (hv : h.at? a p = some v) (hn : v.node? = some n) : n < h.nodes.size :=
  (hs.stored a p v hv).lt_size hn

theorem Valid.list {id : NodeId} (hv : h.Valid (.list id)) :
    ∃ l, h.nodes[id]? = some (.list l) := by
  obtain ⟨node, hnode, hfits⟩ := hv id rfl
  cases node with
  | list l => exact ⟨l, hnode⟩
  | object o => exact absurd hfits (by simp [Node.Fits])
  | hollow => exact absurd hfits (by simp [Node.Fits])

/-! ## Reaching nodes -/

theorem reaches_of_node? {v : Value} {id : NodeId} (hid : v.node? = some id) : h.Reaches v id :=
  ⟨id, hid, .refl⟩

theorem Reaches.child {v : Value} {a b : NodeId} (hv : h.Reaches v a) (hab : h.Child a b) :
    h.Reaches v b := by
  obtain ⟨root, hroot, hpath⟩ := hv
  exact ⟨root, hroot, hpath.tail hab⟩

/-- A value reaches what the values stored in its node reach. -/
theorem Reaches.of_stored {v w : Value} {id n : NodeId} {p : Place} (hid : v.node? = some id)
    (hw : h.at? id p = some w) (hn : h.Reaches w n) : h.Reaches v n := by
  obtain ⟨root, hroot, hpath⟩ := hn
  exact ⟨id, hid, hpath.head ⟨p, w, hw, hroot⟩⟩

/-- **How a value reaches a node:** it refers to it, or a value stored in its node reaches
    it. -/
theorem Reaches.cases {v : Value} {n : NodeId} (hn : h.Reaches v n) :
    v.node? = some n ∨
      ∃ id p w, v.node? = some id ∧ h.at? id p = some w ∧ h.Reaches w n := by
  obtain ⟨root, hroot, hpath⟩ := hn
  rcases hpath.cases_head with rfl | ⟨next, ⟨p, w, hw, hnext⟩, hrest⟩
  · exact Or.inl hroot
  · exact Or.inr ⟨root, p, w, hroot, hw, next, hnext, hrest⟩

/-- What holds of all that a container reaches holds of its node and of all that is reached
    from inside. -/
theorem forall_reaches_iff {P : NodeId → Prop} {v : Value} {id : NodeId}
    (hid : v.node? = some id) :
    (∀ n, h.Reaches v n → P n) ↔
      P id ∧ ∀ p w, h.at? id p = some w → ∀ n, h.Reaches w n → P n := by
  constructor
  · intro hall
    exact ⟨hall id (reaches_of_node? hid), fun p w hw n hn => hall n (.of_stored hid hw hn)⟩
  · rintro ⟨hroot, hinside⟩ n hn
    rcases hn.cases with heq | ⟨a, p, w, ha, hw, hwn⟩
    · rw [hid] at heq
      cases heq
      exact hroot
    · rw [hid] at ha
      cases ha
      exact hinside p w hw n hwn

theorem Sound.le_of_path (hs : h.Sound) {a b : Nat}
    (hpath : Relation.ReflTransGen h.Child a b) : a ≤ b := by
  induction hpath with
  | refl => exact Nat.le_refl a
  | tail _ hlast ih =>
    have := hs.ascending _ _ hlast
    omega

/-- Everything that a valid value reaches exists. -/
theorem Sound.reaches_lt_size (hs : h.Sound) {v : Value} (hv : h.Valid v) {n : Nat}
    (hn : h.Reaches v n) : n < h.nodes.size := by
  obtain ⟨root, hroot, hpath⟩ := hn
  induction hpath with
  | refl => exact hv.lt_size hroot
  | tail _ hlast _ =>
    obtain ⟨p, w, hw, hnode⟩ := hlast
    exact (hs.stored _ p w hw).lt_size hnode

/-- **Induction over a value** of a sound heap: a container may use the claim for all that is
    stored in it. The nodes on the way in come ever later, and there are only so many. -/
theorem Sound.valueInduction (hs : h.Sound) {P : Value → Prop}
    (scalar : ∀ v : Value, v.node? = none → P v)
    (container : ∀ (v : Value) (id : NodeId) (node : Node), v.node? = some id →
      h.nodes[id]? = some node → node.Fits v → (∀ p w, h.at? id p = some w → P w) → P v)
    {v : Value} (hv : h.Valid v) : P v := by
  cases hid : v.node? with
  | none => exact scalar v hid
  | some id =>
    induction hleft : h.nodes.size - id using Nat.strongRecOn generalizing v id with
    | ind left ih =>
      obtain ⟨node, hnode, hfits⟩ := hv id hid
      refine container v id node hid hnode hfits ?_
      intro p w hw
      cases hwid : w.node? with
      | none => exact scalar w hwid
      | some below =>
        have hup : id < below := hs.ascending id below ⟨p, w, hw, hwid⟩
        have hlt : below < h.nodes.size := hs.stored_lt_size hw hwid
        have hless : h.nodes.size - below < left := by
          rw [← hleft]
          exact Nat.sub_lt_sub_left (Nat.lt_trans hup hlt) hup
        exact ih _ hless (hs.stored id p w hw) below hwid rfl

theorem sound_empty : Heap.empty.Sound where
  stored := by
    intro a p v hv
    simp [at?, Heap.empty] at hv
  ascending := by
    rintro a b ⟨p, v, hv, -⟩
    simp [at?, Heap.empty] at hv
  former := by
    intro a node hnode
    simp [Heap.empty] at hnode

end Heap

end ValueRuntime
