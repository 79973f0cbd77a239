import ValueRuntime.Proofs.Heap.Layout

/-! # What operations do to the heap

    Every operation of the heap is a `Change`: nodes are only added and only grow, the heap
    stays sound, and whatever is stored anew is a new node that is stored nowhere else. A
    change hands out a *root*, a value that refers to a new node which is not stored yet.
    Copying hands out the copy, and placing the root in a node completes a store.

    All that later holds of whole runs is derived from changes, never from the operations
    themselves.
-/

namespace ValueRuntime

namespace Heap

variable {h h' h'' : Heap} {root : Value}

/-! ## Changes -/

/-- **What an operation may do to the heap.** The root is what it hands out. -/
structure Change (h h' : Heap) (root : Value) : Prop where
  /-- Nodes are added and grow. -/
  later : h.Extends h'
  sound : h'.Sound
  /-- What is stored at a place was there before or refers to no old node. -/
  kept : ∀ a p v, h'.at? a p = some v →
    h.at? a p = some v ∨ ∀ n : Nat, v.node? = some n → h.nodes.size ≤ n
  /-- No new node is stored at two places. -/
  once : ∀ a p v b q w (n : Nat), h'.at? a p = some v → h'.at? b q = some w →
    v.node? = some n → w.node? = some n → h.nodes.size ≤ n → a = b ∧ p = q
  /-- The root is a new node. -/
  root_new : ∀ n : Nat, root.node? = some n → h.nodes.size ≤ n
  /-- The root is not stored. -/
  root_free : ∀ n, root.node? = some n → ∀ a p v, h'.at? a p = some v → v.node? ≠ some n
  root_valid : h'.Valid root

namespace Change

theorem size_le (hc : Change h h' root) : h.nodes.size ≤ h'.nodes.size := hc.later.size_le

/-- A root need not be stored. -/
theorem dropRoot (hc : Change h h' root) : Change h h' .nil where
  later := hc.later
  sound := hc.sound
  kept := hc.kept
  once := hc.once
  root_new := by
    intro n hn
    cases hn
  root_free := by
    intro n hn
    cases hn
  root_valid := valid_nil

theorem refl (hs : h.Sound) : Change h h .nil where
  later := Extends.refl h
  sound := hs
  kept := by
    intro a p v hv
    exact Or.inl hv
  once := by
    intro a p v b q w n hv _ hn _ hle
    have := hs.stored_lt_size hv hn
    omega
  root_new := by
    intro n hn
    cases hn
  root_free := by
    intro n hn
    cases hn
  root_valid := valid_nil

theorem trans (h₁ : Change h h' .nil) (h₂ : Change h' h'' root) : Change h h'' root where
  later := h₁.later.trans h₂.later
  sound := h₂.sound
  kept := by
    intro a p v hv
    rcases h₂.kept a p v hv with hold | hnew
    · exact h₁.kept a p v hold
    · refine Or.inr ?_
      intro n hn
      have := hnew n hn
      have := h₁.size_le
      omega
  once := by
    intro a p v b q w n hv hw hvn hwn hle
    -- A node that the second change added is stored once by it; an older one was stored at
    -- both places when the second change began.
    rcases Nat.lt_or_ge n h'.nodes.size with hlt | hge
    · have hv' : h'.at? a p = some v := by
        rcases h₂.kept a p v hv with hold | hnew
        · exact hold
        · have := hnew n hvn
          omega
      have hw' : h'.at? b q = some w := by
        rcases h₂.kept b q w hw with hold | hnew
        · exact hold
        · have := hnew n hwn
          omega
      exact h₁.once a p v b q w n hv' hw' hvn hwn hle
    · exact h₂.once a p v b q w n hv hw hvn hwn hge
  root_new := by
    intro n hn
    have := h₂.root_new n hn
    have := h₁.size_le
    omega
  root_free := h₂.root_free
  root_valid := h₂.root_valid

/-- A root stays what it is while other changes are made. -/
theorem keepRoot (h₁ : Change h h' root) (h₂ : Change h' h'' .nil) : Change h h'' root :=
  { h₁.dropRoot.trans h₂ with
    root_new := h₁.root_new
    root_free := by
      intro n hn a p v hv hvn
      rcases h₂.kept a p v hv with hold | hnew
      · exact h₁.root_free n hn a p v hold hvn
      · have := hnew n hvn
        have := h₁.root_valid.lt_size (n := n) hn
        omega
    root_valid := h₂.later.valid h₁.root_valid }

end Change

/-! ## Adding nodes -/

/-- Nodes of a heap after others were put behind them. -/
theorem extends_of_prefix (hold : ∀ n : Nat, n < h.nodes.size → h'.nodes[n]? = h.nodes[n]?) :
    h.Extends h' := by
  intro id node hnode
  refine ⟨node, ?_, Node.Grows.refl node⟩
  rw [hold id (lt_size_of_getElem? hnode)]
  exact hnode

/-- What an old place stores after nodes were added. -/
theorem at?_eq_of_prefix (hold : ∀ n : Nat, n < h.nodes.size → h'.nodes[n]? = h.nodes[n]?)
    {a : Nat} (ha : a < h.nodes.size) (p : Place) : h'.at? a p = h.at? a p := by
  unfold at?
  rw [hold a ha]

/-- The place of a node stores what the list of stored values holds. -/
theorem mem_refs_of_at? {nodes : List Node} {i : Nat} {node : Node} {p : Place} {v : Value}
    {n : Nat} (hnode : nodes[i]? = some node) (hv : node.at? p = some v)
    (hn : v.node? = some n) : n ∈ nodes.flatMap Node.refs := by
  rw [List.mem_flatMap]
  exact ⟨node, List.mem_of_getElem? hnode, (node.mem_refs_iff n).mpr ⟨p, v, hv, hn⟩⟩

/-- Two places of one list that store the same node are the same. -/
theorem index_eq_of_nodup {vs : List Value} (hnd : (vs.filterMap Value.node?).Nodup)
    {i j n : Nat} {v w : Value} (hv : vs[i]? = some v) (hw : vs[j]? = some w)
    (hvn : v.node? = some n) (hwn : w.node? = some n) : i = j := by
  induction vs generalizing i j with
  | nil => simp at hv
  | cons x rest ih =>
    -- A node at the front does not come again behind it.
    have hfront : ∀ (k : Nat) (y : Value), x.node? = some n → rest[k]? = some y →
        y.node? = some n → False := by
      intro k y hx hy hyn
      rw [List.filterMap_cons_some hx, List.nodup_cons] at hnd
      exact hnd.1 (List.mem_filterMap.mpr ⟨y, List.mem_of_getElem? hy, hyn⟩)
    have hrest : (rest.filterMap Value.node?).Nodup :=
      hnd.sublist ((List.sublist_cons_self x rest).filterMap _)
    cases i with
    | zero =>
      simp only [List.getElem?_cons_zero, Option.some.injEq] at hv
      subst hv
      cases j with
      | zero => rfl
      | succ j =>
        rw [List.getElem?_cons_succ] at hw
        exact absurd (hfront j w hvn hw hwn) id
    | succ i =>
      rw [List.getElem?_cons_succ] at hv
      cases j with
      | zero =>
        simp only [List.getElem?_cons_zero, Option.some.injEq] at hw
        subst hw
        exact absurd (hfront i v hwn hv hvn) id
      | succ j =>
        rw [List.getElem?_cons_succ] at hw
        rw [ih hrest hv hw]

/-- Two places of one node that store the same node are the same. -/
theorem place_eq_of_nodup {node : Node} (hnd : node.refs.Nodup) {p q : Place} {v w : Value}
    {n : Nat} (hv : node.at? p = some v) (hw : node.at? q = some w) (hvn : v.node? = some n)
    (hwn : w.node? = some n) : p = q := by
  unfold Node.refs at hnd
  cases node with
  | list l =>
    cases p <;> cases q <;> simp only [Node.at?, reduceCtorEq] at hv hw
    next i j =>
      rw [← Array.getElem?_toList] at hv hw
      rw [index_eq_of_nodup hnd hv hw hvn hwn]
  | object o =>
    simp only [Node.stored, List.filterMap_append] at hnd
    obtain ⟨hkeys, hvalues, hapart⟩ := List.nodup_append.mp hnd
    -- A key and a value of one object never store the same node.
    have hcross : ∀ (i j : Nat) (x y : Value), o.keys[i]? = some x → o.values[j]? = some y →
        x.node? = some n → y.node? = some n → False := by
      intro i j x y hx hy hxn hyn
      have hkey : n ∈ o.keys.toList.filterMap Value.node? :=
        List.mem_filterMap.mpr ⟨x, by simpa using Array.mem_of_getElem? hx, hxn⟩
      have hvalue : n ∈ o.values.toList.filterMap Value.node? :=
        List.mem_filterMap.mpr ⟨y, by simpa using Array.mem_of_getElem? hy, hyn⟩
      exact hapart n hkey n hvalue rfl
    cases p <;> cases q <;> simp only [Node.at?, reduceCtorEq] at hv hw
    next i j =>
      rw [← Array.getElem?_toList] at hv hw
      rw [index_eq_of_nodup hkeys hv hw hvn hwn]
    next i j => exact absurd (hcross i j v w hv hw hvn hwn) id
    next i j => exact absurd (hcross j i w v hw hv hwn hvn) id
    next i j =>
      rw [← Array.getElem?_toList] at hv hw
      rw [index_eq_of_nodup hvalues hv hw hvn hwn]
  | hollow => cases p <;> cases hv

/-- Two places of new nodes that store the same node are the same. -/
theorem Fresh.place_eq {base : Nat} {roots : List Value} {nodes : List Node}
    (hf : Fresh base roots nodes) {i j n : Nat} {a b : Node} {p q : Place} {v w : Value}
    (ha : nodes[i]? = some a) (hb : nodes[j]? = some b) (hv : a.at? p = some v)
    (hw : b.at? q = some w) (hvn : v.node? = some n) (hwn : w.node? = some n) :
    i = j ∧ p = q := by
  have hnd : (nodes.flatMap Node.refs).Nodup := (List.nodup_append.mp hf.nodup).2.1
  obtain ⟨heach, hpairs⟩ := List.nodup_flatMap.mp hnd
  have hna : n ∈ a.refs := (a.mem_refs_iff n).mpr ⟨p, v, hv, hvn⟩
  have hnb : n ∈ b.refs := (b.mem_refs_iff n).mpr ⟨q, w, hw, hwn⟩
  obtain ⟨hi, ha'⟩ := List.getElem?_eq_some_iff.mp ha
  obtain ⟨hj, hb'⟩ := List.getElem?_eq_some_iff.mp hb
  rw [List.pairwise_iff_getElem] at hpairs
  rcases Nat.lt_trichotomy i j with hlt | heq | hgt
  · have hdisj := hpairs i j hi hj hlt
    rw [ha', hb'] at hdisj
    exact absurd hnb (hdisj hna)
  · subst heq
    rw [ha] at hb
    cases hb
    exact ⟨rfl, place_eq_of_nodup (heach a (List.mem_of_getElem? ha)) hv hw hvn hwn⟩
  · have hdisj := hpairs j i hj hi hgt
    rw [ha', hb'] at hdisj
    exact absurd hna (hdisj hnb)

/-- A root of new nodes is stored in none of them. -/
theorem Fresh.root_not_stored {base : Nat} {roots : List Value} {nodes : List Node}
    (hf : Fresh base roots nodes) {v : Value} {n : Nat} (hv : v ∈ roots)
    (hn : v.node? = some n) : n ∉ nodes.flatMap Node.refs := by
  intro hmem
  have hroot : n ∈ roots.filterMap Value.node? := List.mem_filterMap.mpr ⟨v, hv, hn⟩
  exact (List.nodup_append.mp hf.nodup).2.2 n hroot n hmem rfl

/-- **Adding new nodes** is a change that hands out their root. -/
theorem Change.of_fresh {nodes : List Node} (hf : Fresh h.nodes.size [root] nodes)
    (hs : h.Sound) (hold : ∀ n : Nat, n < h.nodes.size → h'.nodes[n]? = h.nodes[n]?)
    (hnew : ∀ i : Nat, h'.nodes[h.nodes.size + i]? = nodes[i]?) : Change h h' root := by
  have hlater : h.Extends h' := extends_of_prefix hold
  -- A place is an old one, or it belongs to a new node.
  have hplace : ∀ (a : Nat) p v, h'.at? a p = some v →
      (a < h.nodes.size ∧ h.at? a p = some v) ∨
        ∃ i node, a = h.nodes.size + i ∧ nodes[i]? = some node ∧ node.at? p = some v := by
    intro a p v hv
    rcases Nat.lt_or_ge a h.nodes.size with hlt | hge
    · exact Or.inl ⟨hlt, by rw [← at?_eq_of_prefix hold hlt]; exact hv⟩
    · obtain ⟨i, rfl⟩ := Nat.exists_eq_add_of_le hge
      obtain ⟨node, hnode, hat⟩ := exists_node_of_at? hv
      rw [hnew] at hnode
      exact Or.inr ⟨i, node, rfl, hnode, hat⟩
  have hvalid : ∀ v ∈ [root] ++ nodes.flatMap Node.stored, h'.Valid v := by
    intro v hv b hb
    obtain ⟨i, node, rfl, hnode, hfits⟩ := hf.typed v hv b hb
    exact ⟨node, by rw [hnew]; exact hnode, hfits⟩
  have hmem : ∀ {i : Nat} {node : Node} {p v}, nodes[i]? = some node → node.at? p = some v →
      v ∈ [root] ++ nodes.flatMap Node.stored := by
    intro i node p v hnode hat
    refine List.mem_append_right _ (List.mem_flatMap.mpr ⟨node, List.mem_of_getElem? hnode, ?_⟩)
    exact (node.mem_stored_iff v).mpr ⟨p, hat⟩
  refine
    { later := hlater
      sound := ⟨?_, ?_, ?_⟩
      kept := ?_
      once := ?_
      root_new := ?_
      root_free := ?_
      root_valid := hvalid root (by simp) }
  · intro a p v hv
    rcases hplace a p v hv with ⟨-, hv'⟩ | ⟨i, node, rfl, hnode, hat⟩
    · exact hlater.valid (hs.stored a p v hv')
    · exact hvalid v (hmem hnode hat)
  · rintro a b ⟨p, v, hv, hb⟩
    rcases hplace a p v hv with ⟨-, hv'⟩ | ⟨i, node, rfl, hnode, hat⟩
    · exact hs.ascending a b ⟨p, v, hv', hb⟩
    · exact hf.ascending i node hnode b ((node.mem_refs_iff b).mpr ⟨p, v, hat, hb⟩)
  · intro a node hnode v hv
    rcases Nat.lt_or_ge a h.nodes.size with hlt | hge
    · rw [hold a hlt] at hnode
      exact hlater.valid (hs.former a node hnode v hv)
    · obtain ⟨i, rfl⟩ := Nat.exists_eq_add_of_le hge
      rw [hnew] at hnode
      rw [hf.former node (List.mem_of_getElem? hnode)] at hv
      cases hv
  · intro a p v hv
    rcases hplace a p v hv with ⟨-, hv'⟩ | ⟨i, node, rfl, hnode, hat⟩
    · exact Or.inl hv'
    · refine Or.inr ?_
      intro n hn
      exact (hf.mem_range (List.mem_append_right _ (mem_refs_of_at? hnode hat hn))).1
  · intro a p v b q w n hv hw hvn hwn hle
    rcases hplace a p v hv with ⟨-, hv'⟩ | ⟨i, x, rfl, hx, hxat⟩
    · have := hs.stored_lt_size hv' hvn
      omega
    · rcases hplace b q w hw with ⟨-, hw'⟩ | ⟨j, y, rfl, hy, hyat⟩
      · have := hs.stored_lt_size hw' hwn
        omega
      · obtain ⟨rfl, rfl⟩ := hf.place_eq hx hy hxat hyat hvn hwn
        exact ⟨rfl, rfl⟩
  · intro n hn
    exact (hf.mem_range (List.mem_append_left _ (by simp [hn]))).1
  · intro n hn a p v hv hvn
    rcases hplace a p v hv with ⟨-, hv'⟩ | ⟨i, node, rfl, hnode, hat⟩
    · have := hs.stored_lt_size hv' hvn
      have := (hf.mem_range (b := n) (List.mem_append_left _ (by simp [hn]))).1
      omega
    · exact hf.root_not_stored (v := root) (by simp) hn (mem_refs_of_at? hnode hat hvn)

theorem Change.alloc (hs : h.Sound) (d : Datum) : Change h (h.alloc d).2 (h.alloc d).1 :=
  Change.of_fresh (fresh_alloc h d) hs (fun _ hn => getElem?_alloc_old h d hn)
    (getElem?_alloc_new h d)

/-- A copy is the root of its new nodes. -/
theorem Change.copy (hs : h.Sound) (v : Value) : Change h (h.copy v).2 (h.copy v).1 :=
  Change.alloc hs (h.view v)

/-- **Adding an empty node.** -/
theorem Change.add (hs : h.Sound) (node : Node) (hstored : node.stored = [])
    (hformer : node.former = []) {v : Value} (hv : v.node? = some h.nodes.size)
    (hfits : node.Fits v) : Change h (h.add node).2 v := by
  have hf : Fresh h.nodes.size [v] [node] :=
    (Fresh.none (h.nodes.size + 1)).wrap hstored hformer hv hfits
  refine Change.of_fresh hf hs ?_ ?_
  · intro n hn
    exact Array.getElem?_push_lt hn |>.trans (Array.getElem?_eq_getElem hn).symm
  · intro i
    simp only [Heap.add, Array.getElem?_push]
    cases i with
    | zero => simp
    | succ i =>
      rw [if_neg (by omega), Array.getElem?_eq_none (by omega)]
      rfl

/-! ## Placing a root -/

/-- A node replaced by one that it may become. -/
theorem extends_put {id : NodeId} {node node' : Node} (hnode : h.nodes[id]? = some node)
    (hgrow : node.Grows node') : h.Extends (h.put id node') := by
  intro n other hother
  by_cases hn : id = n
  · subst hn
    rw [hnode] at hother
    cases hother
    exact ⟨node', getElem?_put_self node' (lt_size_of_getElem? hnode), hgrow⟩
  · exact ⟨other, by rw [getElem?_put_ne node' hn]; exact hother, Node.Grows.refl other⟩

/-- What is stored after a node was replaced. -/
theorem at?_put {id : NodeId} {node : Node} (hnode : h.nodes[id]? = some node) (node' : Node)
    (a : NodeId) (p : Place) :
    (h.put id node').at? a p = if id = a then node'.at? p else h.at? a p := by
  unfold at?
  by_cases ha : id = a
  · subst ha
    rw [if_pos rfl, getElem?_put_self node' (lt_size_of_getElem? hnode)]
    rfl
  · rw [if_neg ha, getElem?_put_ne node' ha]

/-- **Placing the root.** An old node grows, and nothing is stored in it anew but the root
    at one place. -/
theorem Change.place {id : NodeId} {node node' : Node} (hc : Change h h' root)
    (hid : id < h.nodes.size) (hnode : h'.nodes[id]? = some node) (hgrow : node.Grows node')
    (place : Place)
    (hat : ∀ p v, node'.at? p = some v → node.at? p = some v ∨ (p = place ∧ v = root))
    (hformer : ∀ v ∈ node'.former, v ∈ node.former ∨ v ∈ node.stored) :
    Change h (h'.put id node') .nil := by
  have hlater : h'.Extends (h'.put id node') := extends_put hnode hgrow
  -- A place stores what it stored before, or it is the new place of the root.
  have hplace : ∀ a p v, (h'.put id node').at? a p = some v →
      h'.at? a p = some v ∨ (a = id ∧ p = place ∧ v = root) := by
    intro a p v hv
    rw [at?_put hnode] at hv
    by_cases ha : id = a
    · subst ha
      rw [if_pos rfl] at hv
      rcases hat p v hv with hold | ⟨hp, hv'⟩
      · exact Or.inl (by rw [at?_of_node hnode]; exact hold)
      · exact Or.inr ⟨rfl, hp, hv'⟩
    · rw [if_neg ha] at hv
      exact Or.inl hv
  refine
    { later := hc.later.trans hlater
      sound := ⟨?_, ?_, ?_⟩
      kept := ?_
      once := ?_
      root_new := by
        intro n hn
        cases hn
      root_free := by
        intro n hn
        cases hn
      root_valid := valid_nil }
  · intro a p v hv
    rcases hplace a p v hv with hold | ⟨-, -, rfl⟩
    · exact hlater.valid (hc.sound.stored a p v hold)
    · exact hlater.valid hc.root_valid
  · rintro a b ⟨p, v, hv, hb⟩
    rcases hplace a p v hv with hold | ⟨rfl, -, rfl⟩
    · exact hc.sound.ascending a b ⟨p, v, hold, hb⟩
    · have := hc.root_new b hb
      exact Nat.lt_of_lt_of_le hid this
  · intro a other hother v hv
    by_cases ha : id = a
    · subst ha
      rw [getElem?_put_self node' (lt_size_of_getElem? hnode)] at hother
      cases hother
      rcases hformer v hv with hold | hstored
      · exact hlater.valid (hc.sound.former id node hnode v hold)
      · obtain ⟨p, hp⟩ := (node.mem_stored_iff v).mp hstored
        exact hlater.valid (hc.sound.stored id p v (by rw [at?_of_node hnode]; exact hp))
    · rw [getElem?_put_ne node' ha] at hother
      exact hlater.valid (hc.sound.former a other hother v hv)
  · intro a p v hv
    rcases hplace a p v hv with hold | ⟨-, -, rfl⟩
    · exact hc.kept a p v hold
    · exact Or.inr hc.root_new
  · intro a p v b q w n hv hw hvn hwn hle
    rcases hplace a p v hv with hold | ⟨rfl, rfl, rfl⟩
    · rcases hplace b q w hw with hold' | ⟨rfl, rfl, rfl⟩
      · exact hc.once a p v b q w n hold hold' hvn hwn hle
      · exact absurd hvn (hc.root_free n hwn a p v hold)
    · rcases hplace b q w hw with hold' | ⟨rfl, rfl, rfl⟩
      · exact absurd hwn (hc.root_free n hvn b q w hold')
      · exact ⟨rfl, rfl⟩

/-- A node replaced by one that stores nothing anew. -/
theorem Change.put {id : NodeId} {node node' : Node} (hs : h.Sound)
    (hnode : h.nodes[id]? = some node) (hgrow : node.Grows node')
    (hat : ∀ p v, node'.at? p = some v → node.at? p = some v)
    (hformer : ∀ v ∈ node'.former, v ∈ node.former ∨ v ∈ node.stored) :
    Change h (h.put id node') .nil :=
  (Change.refl hs).place (lt_size_of_getElem? hnode) hnode hgrow (.item 0)
    (fun p v hv => Or.inl (hat p v hv)) hformer

end Heap

end ValueRuntime
