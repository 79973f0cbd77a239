import ValueRuntime.Proofs.Heap.Lookup
import ValueRuntime.Proofs.Results

/-! # Objects whose keys differ

    An object takes a key only if it equals none of its keys, so the keys of an object differ
    from one another when they are stored. They may be lists, and a list can be changed. What
    then keeps keys apart is that nobody changes a list *inside a key*, which is the condition
    under which appending and replacing items keep the keys of all objects distinct.

    Storing in an object needs no condition, wherever the object is: equality does not look
    into objects.
-/

namespace ValueRuntime

/-! ## Data -/

namespace Datum

theorem hasDistinctKeys_list_iff (capacity : Nat) (items : List Datum) :
    (Datum.list capacity items).hasDistinctKeys = true ↔
      ∀ d ∈ items, d.hasDistinctKeys = true := by
  unfold hasDistinctKeys
  rw [every_list_iff]
  simp

theorem hasDistinctKeys_object_iff (capacity : Nat) (keys values : List Datum) :
    (Datum.object capacity keys values).hasDistinctKeys = true ↔
      (keys.Pairwise fun a b => a.equal b = false) ∧
        (∀ d ∈ keys, d.hasDistinctKeys = true) ∧ ∀ d ∈ values, d.hasDistinctKeys = true := by
  unfold hasDistinctKeys
  rw [every_object_iff]
  simp

/-- Filling hollow objects makes no keys equal. -/
theorem hasDistinctKeys_filled {d : Datum} (hd : d.hasDistinctKeys = true) :
    d.filled.hasDistinctKeys = true := by
  induction d using treeInduction with
  | list capacity items ih =>
    rw [hasDistinctKeys_list_iff] at hd
    rw [filled, filledAll_eq_map, hasDistinctKeys_list_iff, List.forall_mem_map]
    exact fun d hmem => ih d hmem (hd d hmem)
  | object capacity keys values ihk ihv =>
    obtain ⟨hdiffer, hkeys, hvalues⟩ := (hasDistinctKeys_object_iff _ _ _).mp hd
    rw [filled, filledAll_eq_map, filledAll_eq_map, hasDistinctKeys_object_iff,
      List.forall_mem_map, List.forall_mem_map, List.pairwise_map]
    refine ⟨hdiffer.imp ?_, fun d hmem => ihk d hmem (hkeys d hmem),
      fun d hmem => ihv d hmem (hvalues d hmem)⟩
    intro a b hab
    rw [equal_filled, equal_comm, equal_filled, equal_comm]
    exact hab
  | _ => rfl

end Datum

namespace Heap

variable {h h' : Heap} {v key root : Value} {id : NodeId} {o o' : ObjectNode}

/-! ## Keys that differ -/

/-- **No two keys of an object are equal.** -/
def KeysDiffer (h : Heap) (o : ObjectNode) : Prop :=
  o.keys.toList.Pairwise fun a b => (h.view a).equal (h.view b) = false

/-- **A heap with distinct keys:** in no object are two keys equal. -/
def DistinctKeys (h : Heap) : Prop := ∀ id o, h.object? id = some o → h.KeysDiffer o

theorem distinctKeys_empty : Heap.empty.DistinctKeys := by
  intro id o ho
  rw [object?_eq_some_iff] at ho
  simp [Heap.empty] at ho

/-- Keys differ as long as each of them equals what it equalled. -/
theorem KeysDiffer.kept (hdiffer : h.KeysDiffer o) (hkeys : o'.keys = o.keys)
    (hequal : ∀ k ∈ o.keys.toList, ∀ e, (h'.view k).equal e = (h.view k).equal e) :
    h'.KeysDiffer o' := by
  unfold KeysDiffer
  rw [hkeys]
  refine List.Pairwise.imp_of_mem ?_ hdiffer
  intro a b ha hb hab
  rw [hequal a ha, Datum.equal_comm, hequal b hb, Datum.equal_comm]
  exact hab

/-- **What a value holds has distinct keys** exactly if every object that it reaches has. -/
theorem hasDistinctKeys_view_iff (hs : h.Sound) (hv : h.Valid v) :
    (h.view v).hasDistinctKeys = true ↔
      ∀ n, h.Reaches v n → ∀ o, h.object? n = some o → h.KeysDiffer o := by
  refine hs.valueInduction (P := fun v => (h.view v).hasDistinctKeys = true ↔
    ∀ n, h.Reaches v n → ∀ o, h.object? n = some o → h.KeysDiffer o) ?_ ?_ hv
  · intro v hscalar
    refine iff_of_true ?_ ?_
    · cases v with
      | list id => cases hscalar
      | object id => cases hscalar
      | _ =>
        simp only [view, viewWithin]
        rfl
    · rintro n ⟨root, hroot, -⟩
      rw [hscalar] at hroot
      cases hroot
  · intro v id node hid hnode hfits ih
    have hstored : (∀ w ∈ node.stored, (h.view w).hasDistinctKeys = true) ↔
        ∀ p w, h.at? id p = some w →
          ∀ n, h.Reaches w n → ∀ o, h.object? n = some o → h.KeysDiffer o := by
      constructor
      · intro hall p w hw
        rw [at?_of_node hnode] at hw
        exact (ih p w (by rw [at?_of_node hnode]; exact hw)).mp
          (hall w ((node.mem_stored_iff w).mpr ⟨p, hw⟩))
      · intro hall w hw
        obtain ⟨p, hp⟩ := (node.mem_stored_iff w).mp hw
        rw [← at?_of_node hnode] at hp
        exact (ih p w hp).mpr (hall p w hp)
    rw [forall_reaches_iff hid, ← hstored]
    cases node with
    | list l =>
      obtain rfl := hfits.eq_list hid
      rw [hs.view_list hnode, Datum.hasDistinctKeys_list_iff, List.forall_mem_map]
      refine (and_iff_right ?_).symm
      intro o ho
      rw [object?_eq_some_iff, hnode] at ho
      cases ho
    | object o =>
      obtain rfl := hfits.eq_object hid
      have hroot : (∀ o', h.object? id = some o' → h.KeysDiffer o') ↔ h.KeysDiffer o := by
        rw [object?_eq_some_iff.mpr hnode]
        simp
      rw [hs.view_object hnode, Datum.hasDistinctKeys_object_iff, List.forall_mem_map,
        List.forall_mem_map, List.pairwise_map, hroot, Node.stored, List.forall_mem_append]
      rfl
    | hollow =>
      obtain rfl := hfits.eq_hollow hid
      rw [view_hollow hnode]
      refine iff_of_true rfl ⟨?_, fun w hw => by cases hw⟩
      intro o ho
      rw [object?_eq_some_iff, hnode] at ho
      cases ho

theorem DistinctKeys.view (hd : h.DistinctKeys) (hs : h.Sound) (hv : h.Valid v) :
    (h.view v).hasDistinctKeys = true :=
  (hasDistinctKeys_view_iff hs hv).mpr fun n _ o ho => hd n o ho

/-! ## Inside a key -/

/-- **A node inside a key** of some object. -/
def InKey (h : Heap) (n : NodeId) : Prop :=
  ∃ a index k, h.at? a (.key index) = some k ∧ h.Reaches k n

/-- A node inside a key is stored as a key, or in a node inside a key. -/
theorem InKey.stored {n : NodeId} (hin : h.InKey n) :
    ∃ a p w, h.at? a p = some w ∧ w.node? = some n ∧
      ((∃ index, p = .key index) ∨ h.InKey a) := by
  obtain ⟨a, index, k, hk, root, hroot, hpath⟩ := hin
  rcases hpath.cases_tail with heq | ⟨parent, hparent, p, w, hw, hwn⟩
  · subst heq
    exact ⟨a, .key index, k, hk, hroot, .inl ⟨index, rfl⟩⟩
  · exact ⟨parent, p, w, hw, hwn, .inr ⟨a, index, k, hk, root, hroot, hparent⟩⟩

/-- **No change takes an old node into a key:** keys that are new hold new nodes only. -/
theorem Change.inKey_old (hc : Change h h' root) {n : Nat} (hn : n < h.nodes.size)
    (hin : h'.InKey n) : h.InKey n := by
  obtain ⟨a, index, k, hk, hreach⟩ := hin
  rcases hc.kept a (.key index) k hk with hold | hnew
  · exact ⟨a, index, k, hold, hc.reaches_old hn hreach⟩
  · obtain ⟨start, hstart, hpath⟩ := hreach
    have hle : h.nodes.size ≤ start := hnew start hstart
    have hup : start ≤ n := hc.sound.le_of_path hpath
    exact absurd hn (Nat.not_lt_of_le (Nat.le_trans hle hup))

/-! ## New nodes -/

/-- Every new node is reached from the root. Its parent is an earlier new node, if it is not the
    root itself. -/
theorem Fresh.reaches {base : Nat} {nodes : List Node} (hf : Fresh base [root] nodes)
    (hnew : ∀ i : Nat, h.nodes[base + i]? = nodes[i]?) {i : Nat} (hi : i < nodes.length) :
    h.Reaches root (base + i) := by
  induction i using Nat.strongRecOn with
  | ind i ih =>
    have hmem : base + i ∈ [root].filterMap Value.node? ++ nodes.flatMap Node.refs :=
      hf.once.mem_iff.mpr (List.mem_range'_1.mpr ⟨by omega, by omega⟩)
    rcases List.mem_append.mp hmem with hroot | hrefs
    · obtain ⟨v, hv, hnode⟩ := List.mem_filterMap.mp hroot
      rw [List.mem_singleton.mp hv] at hnode
      exact reaches_of_node? hnode
    · obtain ⟨node, hnode, href⟩ := List.mem_flatMap.mp hrefs
      obtain ⟨j, hj⟩ := List.mem_iff_getElem?.mp hnode
      have hup := hf.ascending j node hj _ href
      obtain ⟨p, w, hw, hwn⟩ := (node.mem_refs_iff _).mp href
      have hparent : h.Reaches root (base + j) := ih j (by omega) (by omega)
      refine hparent.child ⟨p, w, ?_, hwn⟩
      rw [at?_of_node ((hnew j).trans hj)]
      exact hw

/-- Keys stay distinct in nodes that stay as they are. -/
theorem DistinctKeys.older (hd : h.DistinctKeys) (hs : h.Sound) (hold : h.Older h')
    (hid : id < h.nodes.size) (ho : h'.object? id = some o) : h'.KeysDiffer o := by
  have ho' : h.object? id = some o := by
    rw [object?_eq_some_iff] at ho ⊢
    rw [← hold id hid]
    exact ho
  refine (hd id o ho').kept rfl ?_
  intro k hk e
  rw [view_older hs hold (hs.valid_of_mem_keys ho' hk)]

/-- **Laying out contents with distinct keys.** -/
theorem DistinctKeys.alloc (hd : h.DistinctKeys) (hs : h.Sound) {d : Datum}
    (hdatum : d.hasDistinctKeys = true) : (h.alloc d).2.DistinctKeys := by
  intro id o ho
  by_cases hlt : id < h.nodes.size
  · exact hd.older hs (older_alloc h d) hlt ho
  · have hc := Change.alloc hs d
    have hview : ((h.alloc d).2.view (h.alloc d).1).hasDistinctKeys = true := by
      rw [view_alloc_filled hs]
      exact Datum.hasDistinctKeys_filled hdatum
    -- The new object is one of the nodes made for the datum, and these hang on the root.
    have hsize : id < (h.alloc d).2.nodes.size := lt_size_of_getElem? (object?_eq_some_iff.mp ho)
    rw [size_alloc] at hsize
    obtain ⟨i, rfl⟩ := Nat.exists_eq_add_of_le (Nat.le_of_not_lt hlt)
    have hreach := (fresh_alloc h d).reaches (getElem?_alloc_new h d)
      (Nat.lt_of_add_lt_add_left hsize)
    exact (hasDistinctKeys_view_iff hc.sound hc.root_valid).mp hview _ hreach o ho

theorem DistinctKeys.copy (hd : h.DistinctKeys) (hs : h.Sound) (hv : h.Valid v) :
    (h.copy v).2.DistinctKeys :=
  hd.alloc hs (hd.view hs hv)

theorem older_add (h : Heap) (node : Node) : h.Older (h.add node).2 := by
  intro n hn
  exact (Array.getElem?_push_lt hn).trans (Array.getElem?_eq_getElem hn).symm

/-- **Adding a node** without keys. -/
theorem DistinctKeys.add (hd : h.DistinctKeys) (hs : h.Sound) {node : Node}
    (hnode : ∀ o, node = .object o → o.keys = #[]) : (h.add node).2.DistinctKeys := by
  intro id o ho
  by_cases hlt : id < h.nodes.size
  · exact hd.older hs (older_add h node) hlt ho
  · rcases getElem?_push_cases (object?_eq_some_iff.mp ho) with hold | ⟨-, hadded⟩
    · exact absurd (lt_size_of_getElem? hold) hlt
    · unfold KeysDiffer
      rw [hnode o hadded.symm]
      exact List.Pairwise.nil

/-! ## Nodes replaced -/

/-- **Another list at a node that is inside no key.** -/
theorem DistinctKeys.put_list (hd : h.DistinctKeys) (hs : h.Sound) (hno : ¬h.InKey id)
    (l : ListNode) : (h.put id (.list l)).DistinctKeys := by
  intro n o ho
  rw [object?_eq_some_iff, getElem?_put] at ho
  by_cases hn : id = n
  · rw [if_pos hn] at ho
    split at ho <;> cases ho
  · rw [if_neg hn, ← object?_eq_some_iff] at ho
    refine (hd n o ho).kept rfl ?_
    intro k hk e
    obtain ⟨index, hat⟩ := exists_at?_of_mem_keys ho hk
    have hno' : ¬h.Reaches k id := fun hreach => hno ⟨n, index, k, hat, hreach⟩
    rw [view_put_of_not_reaches hs (hs.stored _ _ k hat) hno']

/-- **Another object at a node.** Its keys are compared before it takes the place, since that
    changes no comparison. -/
theorem DistinctKeys.put_object (hd : h.DistinctKeys) (hs : h.Sound)
    (ho : h.nodes[id]? = some (.object o)) (hdiffer : h.KeysDiffer o')
    (hvalid : ∀ k ∈ o'.keys.toList, h.Valid k) : (h.put id (.object o')).DistinctKeys := by
  intro n other hother
  rw [object?_eq_some_iff, getElem?_put] at hother
  by_cases hn : id = n
  · rw [if_pos hn, if_pos (lt_size_of_getElem? ho)] at hother
    cases hother
    exact hdiffer.kept rfl fun k hk => equal_view_put_object hs ho o' (hvalid k hk)
  · rw [if_neg hn, ← object?_eq_some_iff] at hother
    exact (hd n other hother).kept rfl fun k hk =>
      equal_view_put_object hs ho o' (hs.valid_of_mem_keys hother hk)

/-- An object with other values, or with other room. -/
theorem DistinctKeys.put_same_keys (hd : h.DistinctKeys) (hs : h.Sound)
    (ho : h.nodes[id]? = some (.object o)) (hkeys : o'.keys = o.keys) :
    (h.put id (.object o')).DistinctKeys := by
  have ho' := object?_eq_some_iff.mpr ho
  refine hd.put_object hs ho ((hd id o ho').kept hkeys fun k _ e => rfl) ?_
  intro k hk
  rw [hkeys] at hk
  exact hs.valid_of_mem_keys ho' hk

/-! ## Operations -/

/-- A list is not as it was after something was appended to it. -/
theorem getElem?_append_ne {l : ListNode} (hl : h.nodes[id]? = some (.list l)) (v : Value) :
    (h.append id v).nodes[id]? ≠ h.nodes[id]? := by
  have hgrown : (h.put id (.list l.grown)).nodes[id]? = some (.list l.grown) :=
    getElem?_put_self _ (lt_size_of_getElem? hl)
  rw [append_of_list hl, getElem?_put_self _
    (lt_size_of_getElem? (getElem?_copy_of_node hgrown v)), hl]
  intro heq
  have hsame := Node.list.inj (Option.some.inj heq)
  have hsize : (l.grown.items.push _).size = l.items.size := congrArg (·.items.size) hsame
  rw [Array.size_push, items_grown] at hsize
  omega

/-- **Appending** to a list that is inside no key. -/
theorem DistinctKeys.append (hd : h.DistinctKeys) (hs : h.Sound) (hid : h.Valid (.list id))
    (hv : h.Valid v)
    (hkept : h.InKey id → (h.append id v).nodes[id]? = h.nodes[id]?) :
    (h.append id v).DistinctKeys := by
  obtain ⟨l, hl⟩ := hid.list
  have hno : ¬h.InKey id := fun hin => getElem?_append_ne hl v (hkept hin)
  have hlt : id < h.nodes.size := lt_size_of_getElem? hl
  have hroom := change_grown hs hl
  have hcopy := hroom.trans (Change.copy hroom.sound v)
  rw [append_of_list hl]
  refine ((hd.put_list hs hno _).copy hroom.sound (hroom.later.valid hv)).put_list hcopy.sound ?_ _
  exact fun hin => hno (hcopy.inKey_old hlt hin)

/-- A node replaced by itself. -/
theorem put_of_getElem? {node : Node} (hnode : h.nodes[id]? = some node) : h.put id node = h := by
  unfold put
  congr 1
  apply Array.ext_getElem?
  intro n
  rw [Array.getElem?_setIfInBounds]
  split
  · next heq =>
    subst heq
    rw [if_pos (lt_size_of_getElem? hnode), hnode]
  · rfl

/-- **Replacing an item** of a list that is inside no key, or by the same item. -/
theorem DistinctKeys.replaceItem (hd : h.DistinctKeys) (hs : h.Sound) (hv : h.Valid v)
    (index : Nat)
    (hkept : h.InKey id → (h.replaceItem id index v).2.nodes[id]? = h.nodes[id]?) :
    (h.replaceItem id index v).2.DistinctKeys := by
  rcases replaceItem_cases h id index v with ⟨l, hl, hafter⟩ | hafter
  · have hcopy := Change.copy hs v
    have hcopied := getElem?_copy_of_node hl v
    rw [hafter] at hkept ⊢
    by_cases hin : h.InKey id
    · -- The list is what it was, so nothing was done but to make a copy.
      have hsame := hkept hin
      rw [getElem?_put_self _ (lt_size_of_getElem? hcopied), hl] at hsame
      rw [Option.some.inj hsame, put_of_getElem? hcopied]
      exact hd.copy hs hv
    · exact (hd.copy hs hv).put_list hcopy.sound
        (fun hin' => hin (hcopy.inKey_old (lt_size_of_getElem? hl) hin')) _
  · rw [hafter]
    exact hd

/-- **A new key in its place.** It was found equal to none of the keys there. -/
theorem DistinctKeys.withKey (hd : h.DistinctKeys) (hs : h.Sound)
    (ho : h.nodes[id]? = some (.object o)) (hkey : h.Valid key)
    (hnone : h.keyIndex? o key = none) : (h.withKey id o key).DistinctKeys := by
  have hroom := change_grown_object hs ho
  have hgrown : (h.put id (.object o.grown)).DistinctKeys := hd.put_same_keys hs ho rfl
  have hcopied := hgrown.copy hroom.sound (hroom.later.valid hkey)
  have hnode := getElem?_copied_key ho key
  have hcopy := Change.copy hroom.sound key
  refine hcopied.put_object hcopy.sound hnode ?_ ?_
  · show (o.keys.push _).toList.Pairwise _
    rw [Array.toList_push, List.pairwise_append]
    refine ⟨hcopied id o.grown (object?_eq_some_iff.mpr hnode), List.pairwise_singleton _ _, ?_⟩
    intro k hk copied hmem
    rw [List.mem_singleton.mp hmem]
    -- What is compared are old keys and the copy. The room that was made does not show.
    have hk' : h.Valid k := hs.valid_of_mem_keys (object?_eq_some_iff.mpr ho) hk
    have hold : ((h.put id (.object o.grown)).copy key).2.view k
        = (h.put id (.object o.grown)).view k :=
      view_older hroom.sound (older_alloc _ _) (hroom.later.valid hk')
    rw [hold, view_copy hroom.sound, Datum.equal_comm, Datum.equal_filled,
      equal_view_put_object hs ho _ hkey, Datum.equal_comm, equal_view_put_object hs ho _ hk']
    exact List.findIdx?_eq_none_iff.mp hnone k hk
  · intro k hk
    have hpushed : k ∈ (o.keys.push ((h.put id (.object o.grown)).copy key).1).toList := hk
    rw [Array.toList_push, List.mem_append, List.mem_singleton] at hpushed
    rcases hpushed with hold | rfl
    · exact hcopy.sound.valid_of_mem_keys (object?_eq_some_iff.mpr hnode) hold
    · exact hcopy.root_valid

/-- **Storing in an object.** A new key was found equal to none of the keys there. -/
theorem DistinctKeys.store (hd : h.DistinctKeys) (hs : h.Sound) (hkey : h.Valid key)
    (hv : h.Valid v) (hst : h.store id key v = .ok h') : h'.DistinctKeys := by
  obtain ⟨o, ho, ⟨index, -, -, rfl⟩ | ⟨hnone, rfl⟩⟩ := store_cases hst
  · rw [object?_eq_some_iff] at ho
    exact (hd.copy hs hv).put_same_keys (Change.copy hs v).sound (getElem?_copy_of_node ho v) rfl
  · rw [object?_eq_some_iff] at ho
    have hkeyed := Change.withKey hs ho key
    have hplaced := hd.withKey hs ho hkey hnone
    exact (hplaced.copy hkeyed.sound (hkeyed.later.valid hv)).put_same_keys
      (Change.copy hkeyed.sound v).sound (getElem?_copy_of_node (getElem?_withKey ho key) v) rfl

theorem DistinctKeys.storeAll (hd : h.DistinctKeys) (hs : h.Sound)
    {pairs : List (Value × Value)} (hpairs : ∀ pair ∈ pairs, h.Valid pair.1 ∧ h.Valid pair.2)
    (hst : h.storeAll id pairs = .ok h') : h'.DistinctKeys := by
  induction pairs generalizing h with
  | nil =>
    cases hst
    exact hd
  | cons pair rest ih =>
    obtain ⟨key, v⟩ := pair
    obtain ⟨h₁, hfirst, hrest⟩ := bind_eq_ok hst
    obtain ⟨hkey, hv⟩ := hpairs (key, v) List.mem_cons_self
    have hc := Change.store hs hfirst
    refine ih (hd.store hs hkey hv hfirst) hc.sound ?_ hrest
    intro pair hpair
    obtain ⟨hkey', hv'⟩ := hpairs pair (List.mem_cons_of_mem _ hpair)
    exact ⟨hc.later.valid hkey', hc.later.valid hv'⟩

theorem DistinctKeys.objectOf (hd : h.DistinctKeys) (hs : h.Sound) {keys values : List Value}
    (hkeys : ∀ k ∈ keys, h.Valid k) (hvalues : ∀ v ∈ values, h.Valid v)
    (hob : h.objectOf keys values = .ok (v, h')) : h'.DistinctKeys := by
  obtain ⟨-, hall⟩ := objectOf_eq_ok hob
  have hc := Change.newObject hs
  have hnew : h.newObject.2.DistinctKeys := by
    refine hd.add hs ?_
    rintro o ho
    cases ho
    rfl
  refine hnew.storeAll hc.sound (valid_pairUp ?_ ?_) hall
  · exact fun k hk => hc.later.valid (hkeys k hk)
  · exact fun v hv => hc.later.valid (hvalues v hv)

end Heap

end ValueRuntime
