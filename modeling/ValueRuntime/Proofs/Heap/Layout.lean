import Mathlib.Data.List.Nodup
import ValueRuntime.Proofs.Heap.Graph

/-! # Laying out contents

    Contents are laid out in new nodes at the end of the heap. Each new node is referred to
    exactly once: by another new node, or by the value that stands for the whole. `Fresh`
    says so, together with the order and the kinds of the new nodes. It is closed under the
    two ways in which layouts are put together, side by side and inside a container.
-/

namespace ValueRuntime

/-- The nodes that the stored values of a node refer to, place by place. -/
def Node.refs (node : Node) : List Nat := node.stored.filterMap Value.node?

theorem Node.mem_refs_iff (node : Node) (b : Nat) :
    b ∈ node.refs ↔ ∃ p v, node.at? p = some v ∧ v.node? = some b := by
  unfold Node.refs
  rw [List.mem_filterMap]
  constructor
  · rintro ⟨v, hv, hb⟩
    obtain ⟨p, hp⟩ := (node.mem_stored_iff v).mp hv
    exact ⟨p, v, hp, hb⟩
  · rintro ⟨p, v, hp, hb⟩
    exact ⟨v, (node.mem_stored_iff v).mpr ⟨p, hp⟩, hb⟩

namespace Heap

/-! ## New nodes -/

/-- **New nodes** from `base` on, with the values that refer to them from outside. -/
structure Fresh (base : Nat) (roots : List Value) (nodes : List Node) : Prop where
  /-- Every new node is referred to exactly once, by a root or from a new node. -/
  once : (roots.filterMap Value.node? ++ nodes.flatMap Node.refs).Perm
    (List.range' base nodes.length)
  /-- References lead to later nodes. -/
  ascending : ∀ (i : Nat) (node : Node), nodes[i]? = some node → ∀ b ∈ node.refs, base + i < b
  /-- References lead to new nodes of the right kind. -/
  typed : ∀ v ∈ roots ++ nodes.flatMap Node.stored, ∀ b : Nat, v.node? = some b →
    ∃ i node, b = base + i ∧ nodes[i]? = some node ∧ node.Fits v
  /-- No new list has moved. -/
  former : ∀ node ∈ nodes, node.former = []

namespace Fresh

variable {base : Nat} {roots roots' : List Value} {nodes nodes' : List Node}

theorem none (base : Nat) : Fresh base [] [] where
  once := by simp
  ascending := by
    intro i node hnode
    simp at hnode
  typed := by
    intro v hv
    simp at hv
  former := by
    intro node hnode
    simp at hnode

/-- A scalar needs no nodes. -/
theorem scalar (base : Nat) {v : Value} (hv : v.node? = Option.none) : Fresh base [v] [] where
  once := by simp [hv]
  ascending := by
    intro i node hnode
    simp at hnode
  typed := by
    intro w hw b hb
    simp only [List.flatMap_nil, List.append_nil, List.mem_singleton] at hw
    subst hw
    rw [hv] at hb
    cases hb
  former := by
    intro node hnode
    simp at hnode

/-- **Side by side:** two layouts, the second after the first. -/
theorem append (h₁ : Fresh base roots nodes) (h₂ : Fresh (base + nodes.length) roots' nodes') :
    Fresh base (roots ++ roots') (nodes ++ nodes') where
  once := by
    have hsplit : List.range' base (nodes ++ nodes').length
        = List.range' base nodes.length ++ List.range' (base + nodes.length) nodes'.length := by
      rw [List.length_append, List.range'_append_1]
    rw [hsplit, List.filterMap_append, List.flatMap_append]
    -- Bring the references of each layout together.
    have hswap : (roots.filterMap Value.node? ++ roots'.filterMap Value.node?
          ++ (nodes.flatMap Node.refs ++ nodes'.flatMap Node.refs)).Perm
        ((roots.filterMap Value.node? ++ nodes.flatMap Node.refs)
          ++ (roots'.filterMap Value.node? ++ nodes'.flatMap Node.refs)) := by
      rw [List.append_assoc, List.append_assoc]
      apply List.Perm.append_left
      rw [← List.append_assoc, ← List.append_assoc]
      exact List.Perm.append_right _ List.perm_append_comm
    exact hswap.trans (h₁.once.append h₂.once)
  ascending := by
    intro i node hnode b hb
    rcases Nat.lt_or_ge i nodes.length with hlt | hge
    · rw [List.getElem?_append_left hlt] at hnode
      exact h₁.ascending i node hnode b hb
    · rw [List.getElem?_append_right hge] at hnode
      have := h₂.ascending _ node hnode b hb
      omega
  typed := by
    intro v hv b hb
    have hcases : v ∈ roots ++ nodes.flatMap Node.stored
        ∨ v ∈ roots' ++ nodes'.flatMap Node.stored := by
      simp only [List.flatMap_append, List.mem_append] at hv ⊢
      tauto
    rcases hcases with hv₁ | hv₂
    · obtain ⟨i, node, rfl, hnode, hfits⟩ := h₁.typed v hv₁ b hb
      have hlt : i < nodes.length := (List.getElem?_eq_some_iff.mp hnode).1
      exact ⟨i, node, rfl, by rw [List.getElem?_append_left hlt]; exact hnode, hfits⟩
    · obtain ⟨i, node, rfl, hnode, hfits⟩ := h₂.typed v hv₂ b hb
      refine ⟨nodes.length + i, node, by omega, ?_, hfits⟩
      rw [List.getElem?_append_right (by omega), Nat.add_sub_cancel_left]
      exact hnode
  former := by
    intro node hnode
    rcases List.mem_append.mp hnode with h | h
    · exact h₁.former node h
    · exact h₂.former node h

/-- **Inside a container:** a node that stores the roots of a layout, in front of it. -/
theorem wrap {node : Node} {v : Value} (hf : Fresh (base + 1) roots nodes)
    (hstored : node.stored = roots) (hformer : node.former = []) (hv : v.node? = some base)
    (hfits : node.Fits v) : Fresh base [v] (node :: nodes) where
  once := by
    have hroot : [v].filterMap Value.node? = [base] := by simp [hv]
    have hrange : List.range' base (node :: nodes).length
        = base :: List.range' (base + 1) nodes.length := by
      rw [List.length_cons, List.range'_succ]
    rw [hroot, hrange, List.flatMap_cons, Node.refs, hstored]
    exact hf.once.cons base
  ascending := by
    intro i node' hnode b hb
    cases i with
    | zero =>
      simp only [List.getElem?_cons_zero, Option.some.injEq] at hnode
      subst hnode
      have hmem : b ∈ roots.filterMap Value.node? ++ nodes.flatMap Node.refs := by
        rw [Node.refs, hstored] at hb
        exact List.mem_append_left _ hb
      have := List.mem_range'_1.mp (hf.once.mem_iff.mp hmem)
      omega
    | succ i =>
      rw [List.getElem?_cons_succ] at hnode
      have := hf.ascending i node' hnode b hb
      omega
  typed := by
    intro w hw b hb
    rw [List.flatMap_cons, hstored, List.mem_append, List.mem_singleton] at hw
    rcases hw with rfl | hw
    · rw [hv] at hb
      cases hb
      exact ⟨0, node, rfl, rfl, hfits⟩
    · obtain ⟨i, node', rfl, hnode, hfits'⟩ := hf.typed w hw b hb
      exact ⟨i + 1, node', by omega, by rw [List.getElem?_cons_succ]; exact hnode, hfits'⟩
  former := by
    intro node' hnode
    rcases List.mem_cons.mp hnode with rfl | h
    · exact hformer
    · exact hf.former node' h

/-- The references of roots and new nodes lead to new nodes. -/
theorem mem_range (hf : Fresh base roots nodes) {b : Nat}
    (hb : b ∈ roots.filterMap Value.node? ++ nodes.flatMap Node.refs) :
    base ≤ b ∧ b < base + nodes.length :=
  List.mem_range'_1.mp (hf.once.mem_iff.mp hb)

/-- No two references of roots and new nodes are the same. -/
theorem nodup (hf : Fresh base roots nodes) :
    (roots.filterMap Value.node? ++ nodes.flatMap Node.refs).Nodup :=
  hf.once.nodup_iff.mpr (List.nodup_range' (s := base) (n := nodes.length))

end Fresh

/-! ## The layout of a datum -/

/-- What laying out gives: new nodes from `base` on. -/
structure IsLaid {α : Type} (base : Nat) (roots : α → List Value) (laid : Laid α) : Prop where
  next_eq : base + laid.nodes.length = laid.next
  fresh : Fresh base (roots laid.result) laid.nodes

theorem isLaid_scalar (base : Nat) {v : Value} (hv : v.node? = none) :
    IsLaid base ([·]) ⟨v, base, id⟩ where
  next_eq := rfl
  fresh := Fresh.scalar base hv

mutual

theorem onto_layout (base : Nat) (d : Datum) (rest : List Node) :
    (layout base d).onto rest = (layout base d).nodes ++ rest := by
  match d with
  | .nil => rfl
  | .boolean b => rfl
  | .number x => rfl
  | .string s => rfl
  | .function f => rfl
  | .hollow => rfl
  | .list capacity items =>
    simp only [layout, Laid.nodes]
    rw [onto_layoutAll (base + 1) items rest]
    rfl
  | .object capacity keys values =>
    simp only [layout, Laid.nodes]
    rw [onto_layoutAll _ values rest, onto_layoutAll _ keys, onto_layoutAll _ keys,
      List.cons_append, List.append_assoc]
    rfl

theorem onto_layoutAll (base : Nat) (ds : List Datum) (rest : List Node) :
    (layoutAll base ds).onto rest = (layoutAll base ds).nodes ++ rest := by
  match ds with
  | [] => rfl
  | d :: more =>
    simp only [layoutAll, Laid.nodes]
    rw [onto_layoutAll _ more rest, onto_layout base d, onto_layout base d, List.append_assoc]
    rfl

end

/-- A list stands before the nodes of its items. -/
theorem nodes_layout_list (base capacity : Nat) (items : List Datum) :
    (layout base (.list capacity items)).nodes
      = .list (.of capacity (layoutAll (base + 1) items).result.toArray)
        :: (layoutAll (base + 1) items).nodes := by
  simp only [layout, Laid.nodes]

/-- An object stands before the nodes of its keys, and these before those of its values. -/
theorem nodes_layout_object (base capacity : Nat) (keys values : List Datum) :
    (layout base (.object capacity keys values)).nodes
      = .object ⟨(layoutAll (base + 1) keys).result.toArray, capacity,
          (layoutAll (layoutAll (base + 1) keys).next values).result.toArray⟩
        :: ((layoutAll (base + 1) keys).nodes
          ++ (layoutAll (layoutAll (base + 1) keys).next values).nodes) := by
  simp only [layout, Laid.nodes]
  rw [onto_layoutAll (base + 1) keys]
  rfl

theorem nodes_layoutAll_cons (base : Nat) (d : Datum) (rest : List Datum) :
    (layoutAll base (d :: rest)).nodes
      = (layout base d).nodes ++ (layoutAll (layout base d).next rest).nodes := by
  simp only [layoutAll, Laid.nodes]
  rw [onto_layout base d]
  rfl

mutual

theorem isLaid_layout (base : Nat) (d : Datum) : IsLaid base ([·]) (layout base d) := by
  match d with
  | .nil => exact isLaid_scalar base rfl
  | .boolean b => exact isLaid_scalar base rfl
  | .number x => exact isLaid_scalar base rfl
  | .string s => exact isLaid_scalar base rfl
  | .function f => exact isLaid_scalar base rfl
  | .list capacity items =>
    have hitems := isLaid_layoutAll (base + 1) items
    constructor
    · rw [nodes_layout_list, List.length_cons]
      have := hitems.next_eq
      simp only [layout]
      omega
    · rw [nodes_layout_list]
      simp only [layout]
      exact hitems.fresh.wrap (by simp [Node.stored, ListNode.of])
        (by simp [Node.former, ListNode.of]) rfl trivial
  | .object capacity keys values =>
    have hkeys := isLaid_layoutAll (base + 1) keys
    have hvalues := isLaid_layoutAll (layoutAll (base + 1) keys).next values
    constructor
    · rw [nodes_layout_object, List.length_cons, List.length_append]
      have := hkeys.next_eq
      have := hvalues.next_eq
      simp only [layout]
      omega
    · rw [nodes_layout_object]
      simp only [layout]
      have hvalues' := hvalues.fresh
      rw [← hkeys.next_eq] at hvalues' ⊢
      exact (hkeys.fresh.append hvalues').wrap (by simp [Node.stored]) rfl rfl trivial
  | .hollow =>
    refine ⟨rfl, ?_⟩
    exact (Fresh.none (base + 1)).wrap rfl rfl rfl trivial

theorem isLaid_layoutAll (base : Nat) (ds : List Datum) :
    IsLaid base (fun vs => vs) (layoutAll base ds) := by
  match ds with
  | [] => exact ⟨rfl, Fresh.none base⟩
  | d :: rest =>
    have hfirst := isLaid_layout base d
    have hmore := isLaid_layoutAll (layout base d).next rest
    constructor
    · rw [nodes_layoutAll_cons, List.length_append]
      have := hfirst.next_eq
      have := hmore.next_eq
      simp only [layoutAll]
      omega
    · rw [nodes_layoutAll_cons]
      simp only [layoutAll]
      have hmore' := hmore.fresh
      rw [← hfirst.next_eq] at hmore' ⊢
      exact hfirst.fresh.append hmore'

end

/-! ## New contents in a heap -/

/-- The nodes that are made for a datum. -/
def allocated (h : Heap) (d : Datum) : List Node := (layout h.nodes.size d).nodes

variable (h : Heap) (d : Datum)

theorem fresh_alloc : Fresh h.nodes.size [(h.alloc d).1] (h.allocated d) :=
  (isLaid_layout h.nodes.size d).fresh

theorem size_alloc : (h.alloc d).2.nodes.size = h.nodes.size + (h.allocated d).length := by
  simp only [alloc, allocated]
  rw [← Array.length_toList, Array.toList_appendList, List.length_append, Array.length_toList]

theorem getElem?_alloc (n : Nat) :
    (h.alloc d).2.nodes[n]?
      = if n < h.nodes.size then h.nodes[n]? else (h.allocated d)[n - h.nodes.size]? := by
  simp only [alloc, allocated]
  rw [← Array.getElem?_toList, Array.toList_appendList, List.getElem?_append,
    Array.getElem?_toList, Array.length_toList]

/-- Old nodes stay as they are. -/
theorem getElem?_alloc_old {n : Nat} (hn : n < h.nodes.size) :
    (h.alloc d).2.nodes[n]? = h.nodes[n]? := by
  rw [getElem?_alloc, if_pos hn]

/-- A node is still there after a copy is made. -/
theorem getElem?_copy_of_node {h : Heap} {id : NodeId} {node : Node}
    (hid : h.nodes[id]? = some node) (v : Value) : (h.copy v).2.nodes[id]? = some node := by
  unfold copy
  rw [getElem?_alloc_old _ _ (lt_size_of_getElem? hid)]
  exact hid

theorem getElem?_alloc_new (i : Nat) :
    (h.alloc d).2.nodes[h.nodes.size + i]? = (h.allocated d)[i]? := by
  rw [getElem?_alloc, if_neg (by omega), Nat.add_sub_cancel_left]

end Heap

end ValueRuntime
