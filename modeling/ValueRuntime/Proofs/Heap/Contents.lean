import ValueRuntime.Proofs.Datum.Tree
import ValueRuntime.Proofs.Heap.Change
import ValueRuntime.Proofs.Heap.View

/-! # Contents that stay and contents that are laid out

    Two facts about reading the heap after something was laid out in it:

    * What a value held before is what it holds afterwards, since old nodes stay as they are.
    * The new value holds what was laid out.

    Both are read to some depth that is enough, and in a sound heap every such depth gives the
    same contents.
-/

namespace ValueRuntime

namespace Heap

variable {h h' h'' : Heap} {v : Value}

/-! ## Old contents -/

/-- **An older heap:** all its nodes are in the later heap, as they were. -/
def Older (h h' : Heap) : Prop := ∀ n : Nat, n < h.nodes.size → h'.nodes[n]? = h.nodes[n]?

theorem Older.refl (h : Heap) : h.Older h := fun _ _ => rfl

theorem Older.size_le (hold : h.Older h') : h.nodes.size ≤ h'.nodes.size := by
  have hext := extends_of_prefix hold
  exact hext.size_le

theorem Older.trans (h₁ : h.Older h') (h₂ : h'.Older h'') : h.Older h'' := by
  intro n hn
  have hle := h₁.size_le
  rw [h₂ n (by omega), h₁ n hn]

theorem older_alloc (h : Heap) (d : Datum) : h.Older (h.alloc d).2 :=
  fun _ hn => getElem?_alloc_old h d hn

/-- A scalar is read at any depth. -/
theorem viewWithin_scalar (hv : v.node? = none) (depth depth' : Nat) :
    h'.viewWithin depth' v = h.viewWithin depth v := by
  cases v with
  | list id => cases hv
  | object id => cases hv
  | _ => simp only [viewWithin]

/-- A depth that is enough for a container is not zero. -/
theorem Enough.exists_succ {depth : Nat} (he : h.Enough depth v) (hv : h.Valid v) {id : NodeId}
    (hid : v.node? = some id) : ∃ less, depth = less + 1 := by
  have hlt := hv.lt_size hid
  have hle := he id hid
  exact ⟨depth - 1, by omega⟩

/-- **Contents stay while the nodes that hold them do,** and every depth that is enough gives
    the same. The induction is on the depth in the first heap. -/
theorem viewWithin_of_agree (hs : h.Sound) (hv : h.Valid v)
    (hagree : ∀ n, h.Reaches v n → h'.nodes[n]? = h.nodes[n]?) {depth depth' : Nat}
    (he : h.Enough depth v) (he' : h.Enough depth' v) :
    h'.viewWithin depth' v = h.viewWithin depth v := by
  induction depth generalizing v depth' with
  | zero =>
    cases hnode : v.node? with
    | none => exact viewWithin_scalar hnode 0 depth'
    | some id =>
      obtain ⟨less, hless⟩ := he.exists_succ hv hnode
      cases hless
  | succ depth ih =>
    cases hnode : v.node? with
    | none => exact viewWithin_scalar hnode (depth + 1) depth'
    | some id =>
      obtain ⟨depth', rfl⟩ := he'.exists_succ hv hnode
      -- What is stored in the node of `v` is read with one level less in both heaps.
      have hstored : ∀ p w, h.at? id p = some w → h'.viewWithin depth' w = h.viewWithin depth w :=
        fun p w hw => ih (hs.stored id p w hw) (fun n hn => hagree n (.of_stored hnode hw hn))
          (he.stored hs hnode hw) (he'.stored hs hnode hw)
      have hmap : ∀ {values : Array Value} {place : Nat → Place},
          (∀ index : Nat, h.at? id (place index) = values[index]?) →
          values.toList.map (h'.viewWithin depth') = values.toList.map (h.viewWithin depth) := by
        intro values place hplace
        apply List.map_congr_left
        intro w hw
        obtain ⟨index, hindex⟩ := getElem?_eq_some_of_mem hw
        exact hstored (place index) w (by rw [hplace, hindex])
      obtain ⟨node, hid, hfits⟩ := hv id hnode
      have hid' : h'.nodes[id]? = some node := by
        rw [hagree id (reaches_of_node? hnode)]
        exact hid
      cases node with
      | list l =>
        obtain rfl := hfits.eq_list hnode
        rw [viewWithin_list depth' hid', viewWithin_list depth hid,
          hmap fun index => at?_of_node hid (.item index)]
      | object o =>
        obtain rfl := hfits.eq_object hnode
        rw [viewWithin_object depth' hid', viewWithin_object depth hid,
          hmap fun index => at?_of_node hid (.key index),
          hmap fun index => at?_of_node hid (.value index)]
      | hollow =>
        cases v with
        | object id' =>
          cases hnode
          simp only [viewWithin, hid, hid']
        | _ => exact absurd hfits (by simp [Node.Fits])

/-- **Old contents stay.** -/
theorem viewWithin_older (hs : h.Sound) (hold : h.Older h') (hv : h.Valid v) {depth depth' : Nat}
    (he : h.Enough depth v) (he' : h.Enough depth' v) :
    h'.viewWithin depth' v = h.viewWithin depth v :=
  viewWithin_of_agree hs hv (fun n hn => hold n (hs.reaches_lt_size hv hn)) he he'

theorem Enough.mono {depth depth' : Nat} (he : h.Enough depth v) (hle : depth ≤ depth') :
    h.Enough depth' v := by
  intro id hid
  have := he id hid
  omega

/-- What a value holds while everything that it reaches stays. -/
theorem view_of_agree (hs : h.Sound) (hle : h.nodes.size ≤ h'.nodes.size) (hv : h.Valid v)
    (hagree : ∀ n, h.Reaches v n → h'.nodes[n]? = h.nodes[n]?) : h'.view v = h.view v :=
  viewWithin_of_agree hs hv hagree (enough_size h v) ((enough_size h v).mono hle)

/-- What a value held in an older heap. -/
theorem view_older (hs : h.Sound) (hold : h.Older h') (hv : h.Valid v) : h'.view v = h.view v :=
  viewWithin_older hs hold hv (enough_size h v) ((enough_size h v).mono hold.size_le)

/-- What is stored in a container is read as deep inside it as by itself. -/
theorem map_view_stored (hs : h.Sound) {id : Nat} {node : Node} {values : Array Value}
    (place : Nat → Place) (hnode : h.nodes[id]? = some node)
    (hplace : ∀ index : Nat, node.at? (place index) = values[index]?) {less : Nat}
    (hless : h.nodes.size = less + 1) :
    values.toList.map (h.viewWithin less) = values.toList.map h.view := by
  apply List.map_congr_left
  intro w hw
  obtain ⟨index, hindex⟩ := getElem?_eq_some_of_mem hw
  have hat : h.at? id (place index) = some w := by
    rw [at?_of_node hnode, hplace, hindex]
  have henough : h.Enough less w := by
    intro n hn
    have hup : id < n := hs.ascending id n ⟨_, w, hat, hn⟩
    omega
  exact viewWithin_older hs (Older.refl h) (hs.stored _ _ w hat) (enough_size h w) henough

/-- **What a list holds** is what its items hold. -/
theorem Sound.view_list (hs : h.Sound) {id : NodeId} {l : ListNode}
    (hl : h.nodes[id]? = some (.list l)) :
    h.view (.list id) = .list l.capacity (l.items.toList.map h.view) := by
  have hlt := lt_size_of_getElem? hl
  obtain ⟨less, hless⟩ : ∃ less, h.nodes.size = less + 1 := ⟨h.nodes.size - 1, by omega⟩
  have hread := viewWithin_list less hl
  rw [map_view_stored hs .item hl (fun _ => rfl) hless] at hread
  rw [view, hless]
  exact hread

/-- **What an object holds** is what its keys and values hold. -/
theorem Sound.view_object (hs : h.Sound) {id : NodeId} {o : ObjectNode}
    (ho : h.nodes[id]? = some (.object o)) :
    h.view (.object id)
      = .object o.capacity (o.keys.toList.map h.view) (o.values.toList.map h.view) := by
  have hlt := lt_size_of_getElem? ho
  obtain ⟨less, hless⟩ : ∃ less, h.nodes.size = less + 1 := ⟨h.nodes.size - 1, by omega⟩
  have hread := viewWithin_object less ho
  rw [map_view_stored hs .key ho (fun _ => rfl) hless,
    map_view_stored hs .value ho (fun _ => rfl) hless] at hread
  rw [view, hless]
  exact hread

theorem view_hollow {id : NodeId} (hnode : h.nodes[id]? = some .hollow) :
    h.view (.object id) = .hollow := by
  have hlt := lt_size_of_getElem? hnode
  obtain ⟨less, hless⟩ : ∃ less, h.nodes.size = less + 1 := ⟨h.nodes.size - 1, by omega⟩
  rw [view, hless]
  exact viewWithin_hollow less hnode

/-! ## New contents -/

/-- A heap with given nodes from some place on. -/
def Holds (h : Heap) (base : Nat) (nodes : List Node) : Prop :=
  ∀ i node, nodes[i]? = some node → h.nodes[base + i]? = some node

theorem Holds.append {base : Nat} {nodes nodes' : List Node} (hh : h.Holds base (nodes ++ nodes')) :
    h.Holds base nodes ∧ h.Holds (base + nodes.length) nodes' := by
  constructor
  · intro i node hnode
    have hlt : i < nodes.length := (List.getElem?_eq_some_iff.mp hnode).1
    exact hh i node (by rw [List.getElem?_append_left hlt]; exact hnode)
  · intro i node hnode
    rw [Nat.add_assoc]
    refine hh (nodes.length + i) node ?_
    rw [List.getElem?_append_right (by omega), Nat.add_sub_cancel_left]
    exact hnode

theorem Holds.cons {base : Nat} {node : Node} {nodes : List Node}
    (hh : h.Holds base (node :: nodes)) :
    h.nodes[base]? = some node ∧ h.Holds (base + 1) nodes := by
  have hsplit : h.Holds base ([node] ++ nodes) := hh
  exact ⟨hh 0 node rfl, hsplit.append.2⟩

mutual

/-- **A laid-out datum is read back,** in any heap that holds its nodes. -/
theorem viewWithin_layout (base : Nat) (d : Datum) (hd : d.isWhole = true)
    (hh : h.Holds base (layout base d).nodes) {depth : Nat} (hdepth : d.depth ≤ depth) :
    h.viewWithin depth (layout base d).result = d := by
  match d with
  | .nil => simp [layout, viewWithin]
  | .boolean b => simp [layout, viewWithin]
  | .number x => simp [layout, viewWithin]
  | .string s => simp [layout, viewWithin]
  | .function f => simp [layout, viewWithin]
  | .hollow => cases hd
  | .list capacity items =>
    obtain ⟨-, hitems⟩ := (Datum.every_list_iff _ _ _).mp hd
    obtain ⟨hpos, hdepths⟩ := (Datum.depth_list_le_iff _ _ _).mp hdepth
    obtain ⟨less, rfl⟩ : ∃ less, depth = less + 1 := ⟨depth - 1, by omega⟩
    rw [nodes_layout_list] at hh
    obtain ⟨hnode, hrest⟩ := hh.cons
    have hread := viewWithin_layoutAll (base + 1) items hitems hrest hdepths
    rw [Nat.add_sub_cancel] at hread
    simp only [layout]
    rw [viewWithin_list less hnode]
    simp only [ListNode.of, hread]
  | .object capacity keys values =>
    obtain ⟨-, hkeys, hvalues⟩ := (Datum.every_object_iff _ _ _ _).mp hd
    obtain ⟨hpos, hkeyDepths, hvalueDepths⟩ := (Datum.depth_object_le_iff _ _ _ _).mp hdepth
    obtain ⟨less, rfl⟩ : ∃ less, depth = less + 1 := ⟨depth - 1, by omega⟩
    rw [nodes_layout_object] at hh
    obtain ⟨hnode, hrest⟩ := hh.cons
    obtain ⟨hkeyNodes, hvalueNodes⟩ := hrest.append
    rw [(isLaid_layoutAll (base + 1) keys).next_eq] at hvalueNodes
    have hreadKeys := viewWithin_layoutAll (base + 1) keys hkeys hkeyNodes hkeyDepths
    have hreadValues := viewWithin_layoutAll _ values hvalues hvalueNodes hvalueDepths
    rw [Nat.add_sub_cancel] at hreadKeys hreadValues
    simp only [layout]
    rw [viewWithin_object less hnode]
    simp only [hreadKeys, hreadValues]

theorem viewWithin_layoutAll (base : Nat) (ds : List Datum) (hds : ∀ d ∈ ds, d.isWhole = true)
    (hh : h.Holds base (layoutAll base ds).nodes) {depth : Nat}
    (hdepth : ∀ d ∈ ds, d.depth ≤ depth) :
    (layoutAll base ds).result.map (h.viewWithin depth) = ds := by
  match ds with
  | [] => rfl
  | d :: rest =>
    rw [nodes_layoutAll_cons] at hh
    obtain ⟨hfirst, hrest⟩ := hh.append
    rw [(isLaid_layout base d).next_eq] at hrest
    have hread := viewWithin_layout base d (hds d List.mem_cons_self) hfirst
      (hdepth d List.mem_cons_self)
    have hmore := viewWithin_layoutAll _ rest (fun d' hd' => hds d' (List.mem_cons_of_mem _ hd'))
      hrest fun d' hd' => hdepth d' (List.mem_cons_of_mem _ hd')
    simp only [layoutAll, List.map_cons, hread, hmore]

end

/-- **What was laid out is there.** -/
theorem view_alloc (hs : h.Sound) {d : Datum} (hd : d.isWhole = true) :
    (h.alloc d).2.view (h.alloc d).1 = d := by
  have hc := Change.alloc hs d
  have hholds : (h.alloc d).2.Holds h.nodes.size (layout h.nodes.size d).nodes := by
    intro i node hnode
    rw [getElem?_alloc_new]
    exact hnode
  -- The heap is as deep as it is large, and reading deeper changes nothing.
  let deep := (h.alloc d).2.nodes.size + d.depth
  have hdeep : (h.alloc d).2.viewWithin deep (h.alloc d).1 = (h.alloc d).2.view (h.alloc d).1 :=
    viewWithin_older hc.sound (Older.refl _) hc.root_valid (enough_size _ _)
      ((enough_size _ _).mono (Nat.le_add_right _ _))
  rw [← hdeep]
  exact viewWithin_layout h.nodes.size d hd hholds (Nat.le_add_left _ _)

end Heap

end ValueRuntime
