import Mathlib.Data.List.Forall2
import ValueRuntime.Proofs.Heap.Graph

/-! # Reading the contents of values

    `Heap.view` reads a value up to a depth, the number of nodes of the heap. `Unfolds` reads
    it without a bound: a derivation of it is a complete walk through everything in a value,
    so that there is one means that a walk comes to an end. In a sound heap the two agree,
    because the way into a container only leads to later nodes.
-/

namespace ValueRuntime

namespace Heap

variable {h : Heap}

/-! ## Complete walks -/

/-- **The contents of a value**, read to the end. -/
inductive Unfolds (h : Heap) : Value → Datum → Prop where
  | nil : Unfolds h .nil .nil
  | boolean (b : Bool) : Unfolds h (.boolean b) (.boolean b)
  | number (x : Number) : Unfolds h (.number x) (.number x)
  | string (s : Bytes) : Unfolds h (.string s) (.string s)
  | list {id : NodeId} {l : ListNode} {items : List Datum}
      (node : h.nodes[id]? = some (.list l))
      (unfolded : List.Forall₂ (Unfolds h) l.items.toList items) :
      Unfolds h (.list id) (.list l.capacity items)
  | object {id : NodeId} {o : ObjectNode} {keys values : List Datum}
      (node : h.nodes[id]? = some (.object o))
      (unfoldedKeys : List.Forall₂ (Unfolds h) o.keys.toList keys)
      (unfoldedValues : List.Forall₂ (Unfolds h) o.values.toList values) :
      Unfolds h (.object id) (.object o.capacity keys values)
  | hollow {id : NodeId} (node : h.nodes[id]? = some .hollow) : Unfolds h (.object id) .hollow
  | function (f : Option CallableId) : Unfolds h (.function f) (.function f)

/-- A depth that is enough to read a value: no chain from its node on is longer. -/
def Enough (h : Heap) (depth : Nat) (v : Value) : Prop :=
  ∀ id : Nat, v.node? = some id → h.nodes.size ≤ id + depth

theorem enough_size (h : Heap) (v : Value) : h.Enough h.nodes.size v := by
  intro id _
  omega

/-- Inside a container one level less is enough. -/
theorem Enough.stored (hs : h.Sound) {depth : Nat} {v w : Value} {id : Nat} {p : Place}
    (henough : h.Enough (depth + 1) v) (hid : v.node? = some id) (hw : h.at? id p = some w) :
    h.Enough depth w := by
  intro n hn
  have hup := hs.ascending id n ⟨p, w, hw, hn⟩
  have := henough id hid
  omega

theorem forall₂_map {R : Value → Datum → Prop} {f : Value → Datum} {vs : List Value}
    (hall : ∀ v ∈ vs, R v (f v)) : List.Forall₂ R vs (vs.map f) := by
  rw [List.forall₂_map_right_iff, List.forall₂_same]
  exact hall

theorem getElem?_eq_some_of_mem {values : Array Value} {v : Value} (hv : v ∈ values.toList) :
    ∃ index : Nat, values[index]? = some v := by
  rw [Array.mem_toList_iff, Array.mem_iff_getElem?] at hv
  exact hv

/-- A key is stored at the place of its number. -/
theorem exists_at?_of_mem_keys {id : NodeId} {o : ObjectNode} (ho : h.object? id = some o)
    {k : Value} (hk : k ∈ o.keys.toList) : ∃ index, h.at? id (.key index) = some k := by
  obtain ⟨index, hindex⟩ := getElem?_eq_some_of_mem hk
  refine ⟨index, ?_⟩
  rw [at?_of_node (object?_eq_some_iff.mp ho)]
  exact hindex

theorem Sound.valid_of_mem_keys (hs : h.Sound) {id : NodeId} {o : ObjectNode}
    (ho : h.object? id = some o) {k : Value} (hk : k ∈ o.keys.toList) : h.Valid k := by
  obtain ⟨index, hat⟩ := exists_at?_of_mem_keys ho hk
  exact hs.stored id (.key index) k hat

theorem viewWithin_list {id : NodeId} {l : ListNode} (depth : Nat)
    (hl : h.nodes[id]? = some (.list l)) :
    h.viewWithin (depth + 1) (.list id)
      = .list l.capacity (l.items.toList.map (h.viewWithin depth)) := by
  simp only [viewWithin, hl]

theorem viewWithin_object {id : NodeId} {o : ObjectNode} (depth : Nat)
    (ho : h.nodes[id]? = some (.object o)) :
    h.viewWithin (depth + 1) (.object id)
      = .object o.capacity (o.keys.toList.map (h.viewWithin depth))
          (o.values.toList.map (h.viewWithin depth)) := by
  simp only [viewWithin, ho]

theorem viewWithin_hollow {id : NodeId} (depth : Nat) (hnode : h.nodes[id]? = some .hollow) :
    h.viewWithin (depth + 1) (.object id) = .hollow := by
  simp only [viewWithin, hnode]

/-- A depth that is enough gives the complete contents. -/
theorem unfolds_viewWithin (hs : h.Sound) (depth : Nat) (v : Value) (hv : h.Valid v)
    (henough : h.Enough depth v) : h.Unfolds v (h.viewWithin depth v) := by
  induction depth generalizing v with
  | zero =>
    cases v with
    | nil => exact .nil
    | boolean b => exact .boolean b
    | number x => exact .number x
    | string s => exact .string s
    | function f => exact .function f
    | list id =>
      have := henough id rfl
      have := hv.lt_size (n := id) rfl
      omega
    | object id =>
      have := henough id rfl
      have := hv.lt_size (n := id) rfl
      omega
  | succ depth ih =>
    -- What is stored in the node of `v` can be read with one level less.
    have hstored : ∀ (id : Nat) p w, v.node? = some id → h.at? id p = some w →
        h.Unfolds w (h.viewWithin depth w) := by
      intro id p w hid hw
      exact ih w (hs.stored id p w hw) (henough.stored hs hid hw)
    cases v with
    | nil => exact .nil
    | boolean b => exact .boolean b
    | number x => exact .number x
    | string s => exact .string s
    | function f => exact .function f
    | list id =>
      obtain ⟨l, hl⟩ := hv.list
      rw [viewWithin_list depth hl]
      refine .list hl (forall₂_map ?_)
      intro w hw
      obtain ⟨index, hindex⟩ := getElem?_eq_some_of_mem hw
      exact hstored id (.item index) w rfl (by rw [at?_of_node hl]; exact hindex)
    | object id =>
      obtain ⟨node, hnode, hfits⟩ := hv id rfl
      cases node with
      | list l => exact absurd hfits (by simp [Node.Fits])
      | object o =>
        rw [viewWithin_object depth hnode]
        refine .object hnode (forall₂_map ?_) (forall₂_map ?_)
        · intro w hw
          obtain ⟨index, hindex⟩ := getElem?_eq_some_of_mem hw
          exact hstored id (.key index) w rfl (by rw [at?_of_node hnode]; exact hindex)
        · intro w hw
          obtain ⟨index, hindex⟩ := getElem?_eq_some_of_mem hw
          exact hstored id (.value index) w rfl (by rw [at?_of_node hnode]; exact hindex)
      | hollow =>
        rw [viewWithin_hollow depth hnode]
        exact .hollow hnode

/-- **Every walk ends:** the view of a valid value is its complete contents. -/
theorem Sound.unfolds_view (hs : h.Sound) {v : Value} (hv : h.Valid v) :
    h.Unfolds v (h.view v) :=
  unfolds_viewWithin hs h.nodes.size v hv (enough_size h v)

end Heap

end ValueRuntime
