import ValueRuntime.Proofs.Heap.Sizes
import ValueRuntime.Proofs.Heap.View

/-! # Objects with a value for each key

    A heap is *balanced* when every object in it has as many values as keys. Copies of what a
    balanced heap holds are balanced, so most operations keep balance and none restores it.

    One operation can break it. A new key is placed before its value is copied, so a value
    that reaches the object itself is copied at a moment when the object has one key too many.
    `balanced_store_iff` says that this *self-insertion* is the only way.
-/

namespace ValueRuntime

/-- An object has as many values as keys. Other nodes have no keys. -/
def Node.Balanced : Node → Prop
  | .object o => o.keys.size = o.values.size
  | _ => True

/-- Balance is a condition on sizes. -/
def Sizes.isBalanced : Sizes → Bool
  | .object _ keys values => keys == values
  | .list _ _ => true

theorem Node.balanced_iff_meets (node : Node) : node.Balanced ↔ node.Meets Sizes.isBalanced := by
  cases node with
  | object o => exact beq_iff_eq.symm
  | _ => exact iff_of_true trivial rfl

theorem Datum.isBalanced_eq_everySize (d : Datum) :
    d.isBalanced = d.everySize Sizes.isBalanced := by
  unfold isBalanced everySize
  congr 1
  funext d
  cases d <;> rfl

namespace Heap

variable {h h' : Heap}

/-- **A balanced heap:** every object has as many values as keys. -/
def Balanced (h : Heap) : Prop :=
  ∀ (id : NodeId) (node : Node), h.nodes[id]? = some node → node.Balanced

/-- Everything that a value reaches is balanced. -/
def BalancedFrom (h : Heap) (v : Value) : Prop :=
  ∀ n node, h.Reaches v n → h.nodes[n]? = some node → node.Balanced

theorem Balanced.from (hb : h.Balanced) (v : Value) : h.BalancedFrom v := by
  intro n node _ hnode
  exact hb n node hnode

theorem balanced_empty : Heap.empty.Balanced := every_empty

/-! ## Views -/

theorem balancedFrom_scalar {v : Value} (hv : v.node? = none) : h.BalancedFrom v := by
  rintro n node ⟨root, hroot, -⟩
  rw [hv] at hroot
  cases hroot

/-- A container and everything in it. -/
theorem balancedFrom_iff {v : Value} {id : NodeId} {node : Node} (hid : v.node? = some id)
    (hnode : h.nodes[id]? = some node) :
    h.BalancedFrom v ↔ node.Balanced ∧ ∀ p w, node.at? p = some w → h.BalancedFrom w := by
  have hparts := forall_reaches_iff (h := h)
    (P := fun n => ∀ other, h.nodes[n]? = some other → other.Balanced) hid
  constructor
  · intro hall
    obtain ⟨hroot, hinside⟩ := hparts.mp fun n hn other => hall n other hn
    refine ⟨hroot node hnode, ?_⟩
    intro p w hw n other hn
    exact hinside p w (by rw [at?_of_node hnode]; exact hw) n hn other
  · rintro ⟨hroot, hinside⟩ n other hn
    refine hparts.mpr ⟨?_, ?_⟩ n hn other
    · intro other hother
      rw [hnode] at hother
      cases hother
      exact hroot
    · intro p w hw n hn other
      rw [at?_of_node hnode] at hw
      exact hinside p w hw n other hn

theorem balancedFrom_list_iff {id : NodeId} {l : ListNode}
    (hl : h.nodes[id]? = some (.list l)) :
    h.BalancedFrom (.list id) ↔ ∀ w ∈ l.items.toList, h.BalancedFrom w := by
  rw [balancedFrom_iff (v := .list id) rfl hl]
  constructor
  · rintro ⟨-, hinside⟩ w hw
    obtain ⟨p, hp⟩ := (Node.mem_stored_iff (.list l) w).mp hw
    exact hinside p w hp
  · intro hall
    refine ⟨trivial, ?_⟩
    intro p w hp
    exact hall w ((Node.mem_stored_iff (.list l) w).mpr ⟨p, hp⟩)

theorem balancedFrom_object_iff {id : NodeId} {o : ObjectNode}
    (ho : h.nodes[id]? = some (.object o)) :
    h.BalancedFrom (.object id) ↔ o.keys.size = o.values.size ∧
      (∀ w ∈ o.keys.toList, h.BalancedFrom w) ∧ ∀ w ∈ o.values.toList, h.BalancedFrom w := by
  rw [balancedFrom_iff (v := .object id) rfl ho]
  constructor
  · rintro ⟨hsizes, hinside⟩
    have hall : ∀ w ∈ (Node.object o).stored, h.BalancedFrom w := by
      intro w hw
      obtain ⟨p, hp⟩ := (Node.mem_stored_iff (.object o) w).mp hw
      exact hinside p w hp
    exact ⟨hsizes, fun w hw => hall w (List.mem_append_left _ hw),
      fun w hw => hall w (List.mem_append_right _ hw)⟩
  · rintro ⟨hsizes, hkeys, hvalues⟩
    refine ⟨hsizes, ?_⟩
    intro p w hp
    rcases List.mem_append.mp ((Node.mem_stored_iff (.object o) w).mpr ⟨p, hp⟩) with hw | hw
    · exact hkeys w hw
    · exact hvalues w hw

theorem isBalanced_viewWithin_scalar {v : Value} (hv : v.node? = none) (depth : Nat) :
    (h.viewWithin depth v).isBalanced = true := by
  cases v with
  | list id => cases hv
  | object id => cases hv
  | nil => cases depth <;> rfl
  | boolean b => cases depth <;> rfl
  | number x => cases depth <;> rfl
  | string s => cases depth <;> rfl
  | function f => cases depth <;> rfl

/-- A depth that is enough shows everything that is out of balance. -/
theorem isBalanced_viewWithin_iff (hs : h.Sound) (depth : Nat) (v : Value) (hv : h.Valid v)
    (henough : h.Enough depth v) :
    (h.viewWithin depth v).isBalanced = true ↔ h.BalancedFrom v := by
  induction depth generalizing v with
  | zero =>
    -- Without a level to spare, a valid value is a scalar.
    cases hid : v.node? with
    | none => exact iff_of_true (isBalanced_viewWithin_scalar hid _) (balancedFrom_scalar hid)
    | some id =>
      have := henough id hid
      have := hv.lt_size (n := id) hid
      omega
  | succ depth ih =>
    have hstored : ∀ (id : Nat) node w, v.node? = some id → h.nodes[id]? = some node →
        w ∈ node.stored → ((h.viewWithin depth w).isBalanced = true ↔ h.BalancedFrom w) := by
      intro id node w hid hnode hw
      obtain ⟨p, hp⟩ := (node.mem_stored_iff w).mp hw
      have hat : h.at? id p = some w := by
        rw [at?_of_node hnode]
        exact hp
      exact ih w (hs.stored id p w hat) (henough.stored hs hid hat)
    cases hid : v.node? with
    | none => exact iff_of_true (isBalanced_viewWithin_scalar hid _) (balancedFrom_scalar hid)
    | some id =>
      obtain ⟨node, hnode, hfits⟩ := hv id hid
      cases node with
      | list l =>
        cases hfits.eq_list hid
        rw [viewWithin_list depth hnode, Datum.isBalanced_list_iff, List.forall_mem_map,
          balancedFrom_list_iff hnode]
        exact forall₂_congr fun w hw => hstored id _ w rfl hnode hw
      | object o =>
        cases hfits.eq_object hid
        rw [viewWithin_object depth hnode, Datum.isBalanced_object_iff, List.forall_mem_map,
          List.forall_mem_map, List.length_map, List.length_map, Array.length_toList,
          Array.length_toList, balancedFrom_object_iff hnode]
        refine and_congr_right fun _ => and_congr ?_ ?_
        · exact forall₂_congr fun w hw =>
            hstored id _ w rfl hnode (List.mem_append_left _ hw)
        · exact forall₂_congr fun w hw =>
            hstored id _ w rfl hnode (List.mem_append_right _ hw)
      | hollow =>
        obtain rfl := hfits.eq_hollow hid
        rw [viewWithin_hollow depth hnode]
        refine iff_of_true rfl ?_
        rw [balancedFrom_iff hid hnode]
        refine ⟨trivial, ?_⟩
        intro p w hp
        cases p <;> cases hp

/-- **A view is balanced** when everything that the value reaches is. -/
theorem isBalanced_view_iff (hs : h.Sound) {v : Value} (hv : h.Valid v) :
    (h.view v).isBalanced = true ↔ h.BalancedFrom v :=
  isBalanced_viewWithin_iff hs h.nodes.size v hv (enough_size h v)

theorem Balanced.view (hb : h.Balanced) (hs : h.Sound) {v : Value} (hv : h.Valid v) :
    (h.view v).isBalanced = true :=
  (isBalanced_view_iff hs hv).mpr (hb.from v)

/-! ## New contents -/

/-- **The nodes for a datum** are balanced when the datum is. -/
theorem balanced_layout_iff (d : Datum) (base : Nat) :
    (∀ node ∈ (layout base d).nodes, node.Balanced) ↔ d.isBalanced = true := by
  simp only [Node.balanced_iff_meets, Datum.isBalanced_eq_everySize]
  exact everySize_layout_iff rfl d base

/-- **New contents** keep a heap balanced when they are balanced themselves. -/
theorem balanced_alloc_iff (d : Datum) :
    (h.alloc d).2.Balanced ↔ h.Balanced ∧ d.isBalanced = true := by
  rw [← balanced_layout_iff d h.nodes.size]
  exact every_alloc_iff d

theorem balanced_copy_iff (hs : h.Sound) {v : Value} (hv : h.Valid v) :
    (h.copy v).2.Balanced ↔ h.Balanced := by
  unfold copy
  rw [balanced_alloc_iff]
  exact and_iff_left_of_imp fun hb => hb.view hs hv

/-! ## Replaced nodes -/

/-- A replaced node does not change balance when the old and the new one agree on it. -/
theorem balanced_put_iff {id : NodeId} {node : Node} (node' : Node)
    (hnode : h.nodes[id]? = some node) (hsame : node'.Balanced ↔ node.Balanced) :
    (h.put id node').Balanced ↔ h.Balanced :=
  every_put_iff node' hnode hsame

theorem ext_getElem? (hall : ∀ n : Nat, h.nodes[n]? = h'.nodes[n]?) : h = h' := by
  cases h
  cases h'
  exact congrArg Heap.mk (Array.ext_getElem? hall)

/-- Replacing an old node and adding new ones can be done in either order. -/
theorem put_alloc {id : NodeId} (hid : id < h.nodes.size) (node : Node) (d : Datum) :
    (h.alloc d).2.put id node = ((h.put id node).alloc d).2 := by
  have hsame : (h.put id node).allocated d = h.allocated d := by
    unfold allocated
    rw [size_put]
  apply ext_getElem?
  intro n
  rw [getElem?_alloc, hsame, size_put]
  by_cases hn : id = n
  · subst hn
    rw [if_pos hid, getElem?_put_self node hid, getElem?_put_self]
    rw [size_alloc]
    exact Nat.lt_add_right _ hid
  · rw [getElem?_put_ne node hn, getElem?_put_ne node hn, getElem?_alloc]

theorem put_put (id : NodeId) (node node' : Node) :
    (h.put id node).put id node' = h.put id node' := by
  apply ext_getElem?
  intro n
  simp only [getElem?_put, size_put]
  split <;> rfl

/-! ## Storing in lists and objects -/

theorem balanced_append_iff (hs : h.Sound) {id : NodeId} (hid : h.Valid (.list id)) {v : Value}
    (hv : h.Valid v) : (h.append id v).Balanced ↔ h.Balanced := by
  obtain ⟨l, hl⟩ := hid.list
  have hgrown := change_grown hs hl
  have hkeep : (h.put id (.list l.grown)).Balanced ↔ h.Balanced :=
    balanced_put_iff _ hl Iff.rfl
  rw [append_of_list hl, ← hkeep, ← balanced_copy_iff hgrown.sound (hgrown.later.valid hv)]
  have hnode : (h.put id (.list l.grown)).nodes[id]? = some (.list l.grown) :=
    getElem?_put_self _ (lt_size_of_getElem? hl)
  exact balanced_put_iff _ (getElem?_copy_of_node hnode v) Iff.rfl

theorem balanced_replaceItem_iff (hs : h.Sound) (id : NodeId) (index : Nat) {v : Value}
    (hv : h.Valid v) : (h.replaceItem id index v).2.Balanced ↔ h.Balanced := by
  rcases replaceItem_cases h id index v with ⟨l, hl, hafter⟩ | hafter
  · rw [hafter, ← balanced_copy_iff hs hv]
    exact balanced_put_iff _ (getElem?_copy_of_node hl v) Iff.rfl
  · rw [hafter]

/-- **A self-insertion:** the key is new, and the value reaches the object it is stored in. -/
def SelfInsertion (h : Heap) (id : NodeId) (key v : Value) : Prop :=
  ∃ o, h.object? id = some o ∧ h.keyIndex? o key = none ∧ h.Reaches v id

/-- What is reached stays reached while stored values stay in their places. -/
theorem Reaches.mono (hkeep : ∀ a p w, h.at? a p = some w → h'.at? a p = some w) {v : Value}
    {n : NodeId} (hn : h.Reaches v n) : h'.Reaches v n := by
  obtain ⟨root, hroot, hpath⟩ := hn
  have hedges : ∀ a b, h.Child a b → h'.Child a b := by
    rintro a b ⟨p, w, hw, hb⟩
    exact ⟨p, w, hkeep a p w hw, hb⟩
  exact ⟨root, hroot, Relation.ReflTransGen.mono hedges _ _ hpath⟩

/-- Nothing more is reached where the reached nodes have not changed. -/
theorem Reaches.of_agree {v : Value} (hagree : ∀ n, h.Reaches v n → h'.nodes[n]? = h.nodes[n]?)
    {n : NodeId} (hn : h'.Reaches v n) : h.Reaches v n := by
  obtain ⟨root, hroot, hpath⟩ := hn
  induction hpath with
  | refl => exact reaches_of_node? hroot
  | tail _ hlast ih =>
    obtain ⟨p, w, hw, hnode⟩ := hlast
    refine ih.child ⟨p, w, ?_, hnode⟩
    unfold at? at hw ⊢
    rw [hagree _ ih] at hw
    exact hw

section Store

variable {id : NodeId} {o : ObjectNode}

/-- Placing the key leaves all other nodes as they are. -/
theorem getElem?_withKey_ne {n : Nat} (hn : n < h.nodes.size) (hne : id ≠ n) (key : Value) :
    (h.withKey id o key).nodes[n]? = h.nodes[n]? := by
  unfold withKey copy
  rw [getElem?_put_ne _ hne, getElem?_alloc_old _ _ (by rw [size_put]; exact hn),
    getElem?_put_ne _ hne]

/-- Placing the key keeps what is stored. -/
theorem at?_withKey (ho : h.nodes[id]? = some (.object o)) (key : Value) (a : NodeId) (p : Place)
    (w : Value) (hw : h.at? a p = some w) : (h.withKey id o key).at? a p = some w := by
  obtain ⟨node, hnode, hat⟩ := exists_node_of_at? hw
  by_cases ha : id = a
  · subst ha
    rw [ho] at hnode
    cases hnode
    rw [at?_of_node (getElem?_withKey ho key)]
    cases p with
    | item index => cases hat
    | key index =>
      have hindex : index < o.keys.size := (Array.getElem?_eq_some_iff.mp hat).1
      show (o.keys.push _)[index]? = some w
      rw [Array.getElem?_push_lt hindex, ← Array.getElem?_eq_getElem hindex]
      exact hat
    | value index => exact hat
  · have hkept : (h.withKey id o key).nodes[a]? = some node := by
      rw [getElem?_withKey_ne (lt_size_of_getElem? hnode) ha]
      exact hnode
    rw [at?_of_node hkept]
    exact hat

/-- **When the value is copied**, only the object itself is out of balance. -/
theorem balancedFrom_withKey_iff (hs : h.Sound) (hb : h.Balanced)
    (ho : h.nodes[id]? = some (.object o)) (key : Value) {v : Value} (hv : h.Valid v) :
    (h.withKey id o key).BalancedFrom v ↔ ¬h.Reaches v id := by
  constructor
  · intro hall hreach
    have hkeyed := hall id _ (hreach.mono (at?_withKey ho key)) (getElem?_withKey ho key)
    have hsizes : o.keys.size = o.values.size := hb id _ ho
    simp only [Node.Balanced, keyed, ObjectNode.pushKey, ObjectNode.grown,
      Array.size_push] at hkeyed
    omega
  · intro hno n node hn hnode
    have hagree : ∀ m, h.Reaches v m → (h.withKey id o key).nodes[m]? = h.nodes[m]? := by
      intro m hm
      refine getElem?_withKey_ne (hs.reaches_lt_size hv hm) ?_ key
      rintro rfl
      exact hno hm
    have hn' := hn.of_agree hagree
    rw [hagree n hn'] at hnode
    exact hb n node hnode

/-- **Storing under a new key** is balanced when the value is copied in balance. -/
theorem balanced_store_new_iff (hs : h.Sound) (ho : h.nodes[id]? = some (.object o))
    {key v : Value} (hkey : h.Valid key) (hv : h.Valid v) :
    (((h.withKey id o key).copy v).2.put id
        (.object ((h.keyed id o key).pushValue ((h.withKey id o key).copy v).1))).Balanced
      ↔ h.Balanced ∧ ¬h.Reaches v id := by
  have hlt : id < h.nodes.size := lt_size_of_getElem? ho
  have hgrown := change_grown_object hs ho
  have hkeyed := Change.withKey hs ho key
  have hkeyView : h.Balanced → ((h.put id (.object o.grown)).view key).isBalanced = true := by
    intro hb
    have hb' : (h.put id (.object o.grown)).Balanced :=
      (balanced_put_iff (.object o.grown) ho Iff.rfl).mpr hb
    exact hb'.view hgrown.sound (hgrown.later.valid hkey)
  have hvalueView : h.Balanced →
      (((h.withKey id o key).view v).isBalanced = true ↔ ¬h.Reaches v id) := by
    intro hb
    rw [isBalanced_view_iff hkeyed.sound (hkeyed.later.valid hv)]
    exact balancedFrom_withKey_iff hs hb ho key hv
  have hsizes : ∀ stored, (Node.object ((h.keyed id o key).pushValue stored)).Balanced
      ↔ (Node.object o).Balanced := by
    intro stored
    simp only [Node.Balanced, keyed, ObjectNode.pushValue, ObjectNode.pushKey, ObjectNode.grown,
      Array.size_push]
    omega
  -- The last replacement is moved before both copies, where it falls together with the others.
  have hcopies : ∀ node : Node, (((h.withKey id o key).copy v).2.put id node).Balanced ↔
      ((h.put id node).Balanced ∧ ((h.put id (.object o.grown)).view key).isBalanced = true) ∧
        ((h.withKey id o key).view v).isBalanced = true := by
    intro node
    rw [copy, put_alloc (Nat.lt_of_lt_of_le hlt hkeyed.size_le), balanced_alloc_iff]
    rw [withKey, put_put, copy, put_alloc (by rw [size_put]; exact hlt), balanced_alloc_iff,
      put_put]
  rw [hcopies, balanced_put_iff _ ho (hsizes _)]
  constructor
  · rintro ⟨⟨hb, -⟩, hview⟩
    exact ⟨hb, (hvalueView hb).mp hview⟩
  · rintro ⟨hb, hno⟩
    exact ⟨⟨hb, hkeyView hb⟩, (hvalueView hb).mpr hno⟩

/-- **Self-insertion is the only store that breaks balance.** -/
theorem balanced_store_iff {key v : Value} (hs : h.Sound) (hkey : h.Valid key) (hv : h.Valid v)
    (hst : h.store id key v = .ok h') :
    h'.Balanced ↔ h.Balanced ∧ ¬h.SelfInsertion id key v := by
  obtain ⟨o, ho, ⟨index, hindex, -, rfl⟩ | ⟨hnone, rfl⟩⟩ := store_cases hst
  · -- Under a key that is there, the copy is taken before anything changes.
    have hno : ¬h.SelfInsertion id key v := by
      rintro ⟨o', ho', hnone, -⟩
      rw [ho] at ho'
      cases ho'
      rw [hindex] at hnone
      cases hnone
    rw [object?_eq_some_iff] at ho
    have hnode := getElem?_copy_of_node ho v
    have hsame : (Node.object (o.replaceValue index (h.copy v).1)).Balanced
        ↔ (Node.object o).Balanced := by
      simp only [Node.Balanced, ObjectNode.replaceValue, Array.size_setIfInBounds]
    rw [balanced_put_iff _ hnode hsame, balanced_copy_iff hs hv]
    exact (and_iff_left hno).symm
  · have hself : h.SelfInsertion id key v ↔ h.Reaches v id := by
      constructor
      · rintro ⟨-, -, -, hreach⟩
        exact hreach
      · intro hreach
        exact ⟨o, ho, hnone, hreach⟩
    rw [hself]
    exact balanced_store_new_iff hs (object?_eq_some_iff.mp ho) hkey hv

end Store

/-! ## Building objects -/

theorem keyIndex?_lt {o : ObjectNode} {key : Value} {index : Nat}
    (hindex : h.keyIndex? o key = some index) : index < o.keys.size := by
  unfold keyIndex? at hindex
  obtain ⟨hlt, -⟩ := List.findIdx?_eq_some_iff_getElem.mp hindex
  rw [Array.length_toList] at hlt
  exact hlt

/-- A new object that is being filled from the values of an older heap. -/
structure Filling (old h : Heap) (id : NodeId) : Prop where
  sound : h.Sound
  /-- Old nodes are left alone. -/
  kept : ∀ n : Nat, n < old.nodes.size → h.nodes[n]? = old.nodes[n]?
  isNew : old.nodes.size ≤ id
  /-- The object has a value for each key. -/
  object : ∃ o, h.nodes[id]? = some (.object o) ∧ o.keys.size = o.values.size

theorem Filling.extends {old : Heap} {id : NodeId} (hf : Filling old h id) : old.Extends h :=
  extends_of_prefix hf.kept

/-- Old values do not reach the new object. -/
theorem Filling.not_reaches {old : Heap} {id : NodeId} (hf : Filling old h id)
    (hold : old.Sound) {v : Value} (hv : old.Valid v) : ¬h.Reaches v id := by
  intro hreach
  have hold' : old.Reaches v id :=
    hreach.of_agree fun n hn => hf.kept n (hold.reaches_lt_size hv hn)
  have hlt : id < old.nodes.size := hold.reaches_lt_size hv hold'
  exact absurd hf.isNew (Nat.not_le_of_lt hlt)

/-- An object with a value for each key can be stored in. -/
theorem exists_store {id : NodeId} {o : ObjectNode} (ho : h.nodes[id]? = some (.object o))
    (hsizes : o.keys.size = o.values.size) (key v : Value) :
    ∃ h', h.store id key v = .ok h' := by
  cases hst : h.store id key v with
  | ok h' => exact ⟨h', rfl⟩
  | error fault =>
    rcases store_error_cases hst with ⟨hnone, -⟩ | ⟨o', index, ho', hindex, hge, -⟩
    · rw [object?_eq_some_iff.mpr ho] at hnone
      cases hnone
    · rw [object?_eq_some_iff.mpr ho] at ho'
      cases ho'
      have := keyIndex?_lt hindex
      omega

/-- **One store into a new object** succeeds and keeps balance. -/
theorem Filling.store {old : Heap} {id : NodeId} (hf : Filling old h id) (hold : old.Sound)
    {key v : Value} (hkey : old.Valid key) (hv : old.Valid v) :
    ∃ h', h.store id key v = .ok h' ∧ Filling old h' id ∧ (h'.Balanced ↔ h.Balanced) := by
  obtain ⟨o, ho, hsizes⟩ := hf.object
  have hlt : id < h.nodes.size := lt_size_of_getElem? ho
  obtain ⟨h', hst⟩ := exists_store ho hsizes key v
  have hno : ¬h.SelfInsertion id key v := by
    rintro ⟨-, -, -, hreach⟩
    exact hf.not_reaches hold hv hreach
  refine ⟨h', hst, ⟨(Change.store hf.sound hst).sound, ?_, hf.isNew, ?_⟩, ?_⟩
  · -- The old nodes lie below the object, so storing in it does not touch them.
    intro n hn
    rw [← hf.kept n hn]
    have hne : id ≠ n := Nat.ne_of_gt (Nat.lt_of_lt_of_le hn hf.isNew)
    have hn' : n < h.nodes.size := Nat.lt_of_lt_of_le hn hf.extends.size_le
    obtain ⟨o', ho', ⟨index, -, -, rfl⟩ | ⟨-, rfl⟩⟩ := store_cases hst
    · rw [getElem?_put_ne _ hne, copy, getElem?_alloc_old _ _ hn']
    · have hsize : n < (h.withKey id o' key).nodes.size :=
        Nat.lt_of_lt_of_le hn'
          (Change.withKey hf.sound (object?_eq_some_iff.mp ho') key).size_le
      rw [getElem?_put_ne _ hne, copy, getElem?_alloc_old _ _ hsize, getElem?_withKey_ne hn' hne]
  · obtain ⟨o', ho', ⟨index, -, -, rfl⟩ | ⟨-, rfl⟩⟩ := store_cases hst
    · rw [object?_eq_some_iff.mpr ho] at ho'
      cases ho'
      refine ⟨_, getElem?_put_self _ ?_, ?_⟩
      · exact Nat.lt_of_lt_of_le hlt (Change.copy hf.sound v).size_le
      · simp only [ObjectNode.replaceValue, Array.size_setIfInBounds, hsizes]
    · rw [object?_eq_some_iff.mpr ho] at ho'
      cases ho'
      have hkeyed := Change.withKey hf.sound ho key
      refine ⟨_, getElem?_put_self _ ?_, ?_⟩
      · exact Nat.lt_of_lt_of_le hlt
          (hkeyed.trans (Change.copy hkeyed.sound v)).size_le
      · simp only [keyed, ObjectNode.pushValue, ObjectNode.pushKey, ObjectNode.grown,
          Array.size_push, hsizes]
  · rw [balanced_store_iff hf.sound (hf.extends.valid hkey) (hf.extends.valid hv) hst]
    exact and_iff_left hno

theorem Filling.storeAll {old : Heap} {id : NodeId} (hf : Filling old h id) (hold : old.Sound)
    {pairs : List (Value × Value)}
    (hpairs : ∀ pair ∈ pairs, old.Valid pair.1 ∧ old.Valid pair.2) :
    ∃ h', h.storeAll id pairs = .ok h' ∧ (h'.Balanced ↔ h.Balanced) := by
  induction pairs generalizing h with
  | nil => exact ⟨h, rfl, Iff.rfl⟩
  | cons pair rest ih =>
    obtain ⟨key, v⟩ := pair
    obtain ⟨hkey, hv⟩ := hpairs (key, v) List.mem_cons_self
    obtain ⟨h₁, hst, hf₁, hiff₁⟩ := hf.store hold hkey hv
    obtain ⟨h₂, hall, hiff₂⟩ := ih hf₁ fun pair hp => hpairs pair (List.mem_cons_of_mem _ hp)
    refine ⟨h₂, ?_, hiff₂.trans hiff₁⟩
    rw [Heap.storeAll, hst]
    exact hall

theorem valid_pairUp {keys values : List Value} (hkeys : ∀ v ∈ keys, h.Valid v)
    (hvalues : ∀ v ∈ values, h.Valid v) :
    ∀ pair ∈ pairUp keys values, h.Valid pair.1 ∧ h.Valid pair.2 := by
  fun_induction pairUp keys values with
  | case1 values =>
    intro pair hp
    cases hp
  | case2 key keys ih =>
    intro pair hp
    rcases List.mem_cons.mp hp with rfl | hp'
    · exact ⟨hkeys key List.mem_cons_self, valid_nil⟩
    · exact ih (fun v hv => hkeys v (List.mem_cons_of_mem key hv)) hvalues pair hp'
  | case3 key keys v values ih =>
    intro pair hp
    rcases List.mem_cons.mp hp with rfl | hp'
    · exact ⟨hkeys key List.mem_cons_self, hvalues v List.mem_cons_self⟩
    · exact ih (fun w hw => hkeys w (List.mem_cons_of_mem key hw))
        (fun w hw => hvalues w (List.mem_cons_of_mem v hw)) pair hp'

/-- Adding a balanced node. -/
theorem balanced_add_iff {node : Node} (hnode : node.Balanced) :
    (h.add node).2.Balanced ↔ h.Balanced :=
  every_add_iff hnode

/-- A new object is one that nothing was stored in yet. -/
theorem filling_newObject (hs : h.Sound) : Filling h h.newObject.2 h.nodes.size := by
  refine ⟨(Change.newObject hs).sound, ?_, Nat.le_refl _, .empty, ?_, rfl⟩
  · intro n hn
    exact (Array.getElem?_push_lt hn).trans (Array.getElem?_eq_getElem hn).symm
  · show (h.nodes.push (.object .empty))[h.nodes.size]? = some (.object .empty)
    exact Array.getElem?_push_size

/-- **Building an object** from valid values succeeds and keeps balance. -/
theorem objectOf_balanced (hs : h.Sound) {keys values : List Value}
    (hkeys : ∀ v ∈ keys, h.Valid v) (hvalues : ∀ v ∈ values, h.Valid v) :
    ∃ v h', h.objectOf keys values = .ok (v, h') ∧ (h'.Balanced ↔ h.Balanced) := by
  obtain ⟨h', hall, hiff⟩ := (filling_newObject hs).storeAll hs (valid_pairUp hkeys hvalues)
  refine ⟨.object h.nodes.size, h', ?_, hiff.trans (balanced_add_iff rfl)⟩
  show (do return (Value.object h.nodes.size,
    ← h.newObject.2.storeAll h.nodes.size (pairUp keys values))) = _
  rw [hall]
  rfl

end Heap

end ValueRuntime
