import ValueRuntime.Proofs.Heap.Building
import ValueRuntime.Proofs.Heap.Distinct
import ValueRuntime.Proofs.Machine.Balance
import ValueRuntime.Proofs.Machine.Forest

/-! # Who has a way into a key

    An object stores copies of its keys, and the only thing that shows these copies is a walk
    through its pairs. So whoever has a container inside a key was lent that key, or has read
    its way down from one that was lent. Values form a forest, hence there is no other way in.

    A client that leaves the keys it was lent as they are can therefore change no key at all,
    and the keys of every object differ from one another for good.
-/

namespace ValueRuntime

/-! ## Rooms that lists have left -/

namespace Heap

variable {h h' : Heap} {a id : NodeId} {v : Value}

/-- **What a list has left** in a room that it moved out of. -/
def Left (h : Heap) (a : NodeId) (v : Value) : Prop :=
  ∃ node, h.nodes[a]? = some node ∧ v ∈ node.former

theorem Left.valid (hleft : h.Left a v) (hs : h.Sound) : h.Valid v := by
  obtain ⟨node, hnode, hv⟩ := hleft
  exact hs.former a node hnode v hv

/-- Objects have no rooms to leave. -/
theorem Left.not_key (hleft : h.Left a v) (index : Nat) : h.at? a (.key index) = none := by
  obtain ⟨node, hnode, hv⟩ := hleft
  rw [at?_of_node hnode]
  cases node with
  | list l => rfl
  | object o => cases hv
  | hollow => cases hv

theorem Left.of_alloc {d : Datum} (hleft : (h.alloc d).2.Left a v) : h.Left a v := by
  obtain ⟨node, hnode, hv⟩ := hleft
  by_cases ha : a < h.nodes.size
  · rw [getElem?_alloc_old h d ha] at hnode
    exact ⟨node, hnode, hv⟩
  · obtain ⟨i, rfl⟩ := Nat.exists_eq_add_of_le (Nat.le_of_not_lt ha)
    rw [getElem?_alloc_new] at hnode
    rw [(fresh_alloc h d).former node (List.mem_of_getElem? hnode)] at hv
    cases hv

theorem Left.of_add {node : Node} (hformer : node.former = [])
    (hleft : (h.add node).2.Left a v) : h.Left a v := by
  obtain ⟨found, hfound, hv⟩ := hleft
  rcases getElem?_push_cases hfound with hold | ⟨-, rfl⟩
  · exact ⟨found, hold, hv⟩
  · rw [hformer] at hv
    cases hv

theorem Left.of_put {node : Node} (hleft : (h.put id node).Left a v) :
    h.Left a v ∨ (a = id ∧ v ∈ node.former) := by
  obtain ⟨found, hfound, hv⟩ := hleft
  rcases getElem?_setIfInBounds_cases hfound with ⟨-, hold⟩ | ⟨ha, rfl⟩
  · exact .inl ⟨found, hold, hv⟩
  · exact .inr ⟨ha, hv⟩

/-- A node that stays in its room. -/
theorem Left.of_put_same {node node' : Node} (hleft : (h.put id node').Left a v)
    (hnode : h.nodes[id]? = some node) (hformer : node'.former = node.former) : h.Left a v := by
  rcases hleft.of_put with hold | ⟨rfl, hv⟩
  · exact hold
  · rw [hformer] at hv
    exact ⟨node, hnode, hv⟩

/-- What a list leaves when it moves were its items. -/
theorem Left.of_append {l : ListNode} (hl : h.nodes[id]? = some (.list l)) {w : Value}
    (hleft : (h.append id w).Left a v) : h.Left a v ∨ ∃ p, h.at? a p = some v := by
  have hgrown : (h.put id (.list l.grown)).nodes[id]? = some (.list l.grown) :=
    getElem?_put_self _ (lt_size_of_getElem? hl)
  rw [append_of_list hl] at hleft
  have hmoved : (h.put id (.list l.grown)).Left a v :=
    (hleft.of_put_same (getElem?_copy_of_node hgrown w) rfl).of_alloc
  rcases hmoved.of_put with hold | ⟨rfl, hv⟩
  · exact .inl hold
  · rcases former_grown l v hv with hbefore | hitem
    · exact .inl ⟨_, hl, hbefore⟩
    · obtain ⟨p, hp⟩ := ((Node.list l).mem_stored_iff v).mp hitem
      exact .inr ⟨p, by rw [at?_of_node hl]; exact hp⟩

theorem Left.of_replaceItem {index : Nat} {w : Value}
    (hleft : (h.replaceItem id index w).2.Left a v) : h.Left a v := by
  rcases replaceItem_cases h id index w with ⟨l, hl, hafter⟩ | hafter
  · rw [hafter] at hleft
    exact (hleft.of_put_same (getElem?_copy_of_node hl w) rfl).of_alloc
  · rw [hafter] at hleft
    exact hleft

theorem Left.of_store {key w : Value} (hst : h.store id key w = .ok h')
    (hleft : h'.Left a v) : h.Left a v := by
  obtain ⟨o, ho, ⟨index, -, -, rfl⟩ | ⟨-, rfl⟩⟩ := store_cases hst
  · rw [object?_eq_some_iff] at ho
    exact (hleft.of_put_same (getElem?_copy_of_node ho w) rfl).of_alloc
  · rw [object?_eq_some_iff] at ho
    have hkeyed := getElem?_copy_of_node (getElem?_withKey ho key) w
    have hplaced : (h.withKey id o key).Left a v := (hleft.of_put_same hkeyed rfl).of_alloc
    unfold withKey at hplaced
    have hroom : (h.put id (.object o.grown)).Left a v :=
      (hplaced.of_put_same (getElem?_copied_key ho key) rfl).of_alloc
    exact hroom.of_put_same ho rfl

theorem Left.of_storeAll {pairs : List (Value × Value)} (hst : h.storeAll id pairs = .ok h')
    (hleft : h'.Left a v) : h.Left a v := by
  induction pairs generalizing h with
  | nil =>
    cases hst
    exact hleft
  | cons pair rest ih =>
    obtain ⟨h₁, hfirst, hrest⟩ := bind_eq_ok hst
    exact (ih hrest).of_store hfirst

theorem Left.of_objectOf {keys values : List Value} {made : Value}
    (hob : h.objectOf keys values = .ok (made, h')) (hleft : h'.Left a v) : h.Left a v :=
  (hleft.of_storeAll (objectOf_eq_ok hob).2).of_add rfl

/-- **A way stays** as long as the nodes on it do. -/
theorem Reaches.kept {n : NodeId}
    (hsame : ∀ m node, h.Reaches v m → h.nodes[m]? = some node → h'.nodes[m]? = some node)
    (hn : h.Reaches v n) : h'.Reaches v n := by
  obtain ⟨root, hroot, hpath⟩ := hn
  induction hpath with
  | refl => exact reaches_of_node? hroot
  | @tail parent child hbefore hlast ih =>
    obtain ⟨p, w, hw, hchild⟩ := hlast
    obtain ⟨node, hnode, hat⟩ := exists_node_of_at? hw
    refine ih.child ⟨p, w, ?_, hchild⟩
    rw [at?_of_node (hsame parent node ⟨root, hroot, hbefore⟩ hnode)]
    exact hat

end Heap

/-! ## Operations -/

theorem Contents.hasDistinctKeys_datum {h : Heap} (hs : h.Sound) (hd : h.DistinctKeys)
    (contents : Contents) (hvalid : ∀ v ∈ contents.handles, h.Valid v) :
    (contents.datum h).hasDistinctKeys = true := by
  refine contents.every_datum ⟨?_, fun _ => rfl, fun key value => by simp⟩ ?_ ?_
    fun v hv => hd.view hs (hvalid v hv)
  · intro d _ hd
    cases d <;> first | rfl | exact absurd rfl hd
  · intro input d hdecode
    exact (Codec.decoded_of_decode hdecode).hasDistinctKeys
  · intro id o ho
    rw [← Datum.hasDistinctKeys, Datum.hasDistinctKeys_list_iff, List.forall_mem_map]
    exact fun k hk => hd.view hs (hs.valid_of_mem_keys ho hk)

namespace Session

variable {s s' : Session} {op : Operation}

/-- What a change of a session does to its heap. -/
theorem Change.onHeap (hc : Change s s') : Heap.Change s.heap s'.heap .nil where
  later := hc.later
  sound := hc.sound.heap
  kept := fun a p v hv => hc.kept (.inNode a p) v hv
  once := by
    intro a p v b q w n hv hw hvn hwn hnew
    have hslots := hc.once (.inNode a p) (.inNode b q) v w n hv hw hvn hwn hnew
    cases hslots
    exact ⟨rfl, rfl⟩
  root_new := fun n hn => by cases hn
  root_free := fun n hn => by cases hn
  root_valid := Heap.valid_nil

/-- An operation lets a list leave only what was stored in it. -/
theorem HeapStep.left {h h' : Heap} (hstep : HeapStep h op h')
    (hvalid : ∀ v ∈ op.handles, h.Valid v) {a : NodeId} {v : Value} (hleft : h'.Left a v) :
    h.Left a v ∨ ∃ p, h.at? a p = some v := by
  cases hstep with
  | same => exact .inl hleft
  | build contents => exact .inl hleft.of_alloc
  | blank kind =>
    refine .inl (hleft.of_add ?_)
    cases kind <;> rfl
  | objectOf made => exact .inl (hleft.of_objectOf made)
  | append id w =>
    obtain ⟨l, hl⟩ := (hvalid _ List.mem_cons_self).list
    exact hleft.of_append hl
  | replaceItem id index w => exact .inl hleft.of_replaceItem
  | store stored => exact .inl (hleft.of_store stored)
  | copy given => exact .inl hleft.of_alloc

/-- **An operation changes only what it uses:** every other old node stays as it is. -/
theorem HeapStep.others {h h' : Heap} (hstep : HeapStep h op h') (hs : h.Sound)
    (hvalid : ∀ v ∈ op.handles, h.Valid v) {n : Nat} (hn : n < h.nodes.size)
    (hno : ∀ v ∈ op.uses, v.node? ≠ some n) : h'.nodes[n]? = h.nodes[n]? := by
  cases hstep with
  | same => rfl
  | build contents => exact Heap.older_alloc h _ n hn
  | blank kind => exact Heap.older_add h _ n hn
  | @objectOf keys values v h' made =>
    obtain ⟨h₁, hob, holder, -⟩ := Heap.exists_objectOf hs
      (fun k hk => hvalid k (List.mem_append_left _ hk))
      (fun w hw => hvalid w (List.mem_append_right _ hw))
    rw [made] at hob
    cases hob
    exact holder n hn
  | append id v =>
    have hid : h.Valid (.list id) := hvalid _ List.mem_cons_self
    exact (Heap.ChangeThrough.append hs hid v).others n hn (hno _ List.mem_cons_self)
  | replaceItem id index v =>
    exact (Heap.ChangeThrough.replaceItem hs id index v).others n hn (hno _ List.mem_cons_self)
  | store stored =>
    exact (Heap.ChangeThrough.store hs stored).others n hn (hno _ List.mem_cons_self)
  | copy given => exact Heap.older_alloc h _ n hn

/-- An operation that changes no container only adds nodes. -/
theorem HeapStep.older {h h' : Heap} (hstep : HeapStep h op h') (hs : h.Sound)
    (hvalid : ∀ v ∈ op.handles, h.Valid v) (huses : op.uses = []) : h.Older h' := by
  intro n hn
  refine hstep.others hs hvalid hn ?_
  rw [huses]
  intro v hv
  cases hv

/-- **One operation keeps the keys of objects distinct,** unless it changes a container inside
    a key. -/
theorem HeapStep.distinctKeys {h h' : Heap} (hstep : HeapStep h op h') (hs : h.Sound)
    (hd : h.DistinctKeys) (hvalid : ∀ v ∈ op.handles, h.Valid v)
    (hkept : ∀ v ∈ op.uses, ∀ n, v.node? = some n → h.InKey n → h'.nodes[n]? = h.nodes[n]?) :
    h'.DistinctKeys := by
  cases hstep with
  | same => exact hd
  | build contents => exact hd.alloc hs (contents.hasDistinctKeys_datum hs hd hvalid)
  | blank kind =>
    apply hd.add hs
    rintro o ho
    cases kind <;> cases ho
    rfl
  | objectOf made =>
    exact hd.objectOf hs (fun k hk => hvalid k (List.mem_append_left _ hk))
      (fun w hw => hvalid w (List.mem_append_right _ hw)) made
  | append id v =>
    have hid : h.Valid (.list id) := hvalid _ List.mem_cons_self
    have hv : h.Valid v := hvalid v (List.mem_cons_of_mem _ List.mem_cons_self)
    exact hd.append hs hid hv (hkept (.list id) List.mem_cons_self id rfl)
  | replaceItem id index v =>
    have hv : h.Valid v := hvalid v (List.mem_cons_of_mem _ List.mem_cons_self)
    exact hd.replaceItem hs hv index (hkept (.list id) List.mem_cons_self id rfl)
  | @store id key v h' stored =>
    have hkey : h.Valid key := hvalid key (by simp [Operation.handles])
    have hv : h.Valid v := hvalid v (by simp [Operation.handles])
    exact hd.store hs hkey hv stored
  | copy given => exact hd.copy hs (hvalid _ given)

/-- **What a list has left stays its own:** it is stored nowhere but in that list. -/
def LeftOwned (s : Session) : Prop :=
  ∀ a v slot w n, s.heap.Left a v → v.node? = some n → s.at? slot = some w →
    w.node? = some n → ∃ p, slot = .inNode a p

theorem leftOwned_new (id name : Bytes) (writable : Bool) :
    (Session.new id name writable).LeftOwned := by
  rintro a v slot w n ⟨node, hnode, -⟩
  have hempty : (#[] : Array Node)[a]? = some node := hnode
  simp at hempty

/-- **One operation** keeps what lists have left their own: a list leaves items that were
    stored in it alone. -/
theorem LeftOwned.perform (hleft : s.LeftOwned) (hs : s.Sound) (hu : s.Unique)
    (hop : op.Allowed s) : (s.perform op).LeftOwned := by
  intro a v slot w n hv hvn hw hwn
  have hc := Change.perform hs hop
  have hbefore := (s.heapStep_perform op).left hop hv
  have hvalid : s.heap.Valid v := by
    rcases hbefore with hold | ⟨p, hp⟩
    · exact hold.valid hs.heap
    · exact hs.heap.stored a p v hp
  -- The node is an old one, so the slot has stored it before.
  have hslot : s.at? slot = some w := by
    rcases hc.kept slot w hw with hold | hnew
    · exact hold
    · exact absurd (hvalid.lt_size hvn) (Nat.not_lt_of_le (hnew n hwn))
  rcases hbefore with hold | ⟨p, hp⟩
  · exact hleft a v slot w n hold hvn hslot hwn
  · exact ⟨p, hu slot (.inNode a p) w v n hslot hp hwn hvn⟩

end Session

/-! ## Keys that were lent -/

namespace Client

variable {c : Client} {move : Move}

/-- **A move disturbs a lent key** if it changes a container that the key reaches. -/
def Disturbs (c : Client) (move : Move) : Prop :=
  ∃ k ∈ c.lent, ∃ n node, c.heap.Reaches k n ∧ c.heap.nodes[n]? = some node ∧
    (c.play move).heap.nodes[n]? ≠ some node

/-- **A client that spares the keys it was lent:** none of its moves disturbs one. -/
def SparesLent (c : Client) : List Move → Prop
  | [] => True
  | move :: rest => ¬c.Disturbs move ∧ (c.play move).SparesLent rest

theorem kept_of_not_disturbs (hspared : ¬c.Disturbs move) {k : Value} (hk : k ∈ c.lent)
    {n : NodeId} {node : Node} (hreach : c.heap.Reaches k n)
    (hnode : c.heap.nodes[n]? = some node) : (c.play move).heap.nodes[n]? = some node := by
  by_contra hchanged
  exact hspared ⟨k, hk, n, node, hreach, hnode, hchanged⟩

/-- **Every way into a key was lent.** If a client has a container inside a key, then it was
    lent a key that reaches the container. -/
def LentOnly (c : Client) : Prop :=
  ∀ v ∈ c.handles, ∀ n, v.node? = some n → c.heap.InKey n → ∃ k ∈ c.lent, c.heap.Reaches k n

/-- **What a client that spares lent keys can rely on.** -/
structure Owned (c : Client) : Prop where
  sound : c.Sound
  unique : c.session.Unique
  left : c.session.LeftOwned
  lent : c.LentOnly
  distinct : c.heap.DistinctKeys

theorem owned_new (id name : Bytes) (writable : Bool) : (Client.new id name writable).Owned where
  sound := sound_new id name writable
  unique := Session.unique_new id name writable
  left := Session.leftOwned_new id name writable
  lent := fun v hv => by cases hv
  distinct := Heap.distinctKeys_empty

theorem LentOnly.has (hlent : c.LentOnly) {v : Value} (hv : c.Has v) {n : NodeId}
    (hn : v.node? = some n) (hin : c.heap.InKey n) : ∃ k ∈ c.lent, c.heap.Reaches k n := by
  rcases hv with hscalar | hmem
  · rw [hn] at hscalar
    cases hscalar
  · exact hlent v hmem n hn hin

/-- **Reading is no way into a key** that was not lent. A node is stored once, so what is read
    inside a key is read in a container that is inside that key as well. -/
theorem Owned.lent_of_reads (hc : c.Owned) {v : Value} (hv : c.Reads v) {n : NodeId}
    (hn : v.node? = some n) (hin : c.heap.InKey n) : ∃ k ∈ c.lent, c.heap.Reaches k n := by
  obtain ⟨a, p, w, hw, hwn, hplace⟩ := hin.stored
  have hslot : c.session.at? (.inNode a p) = some w := hw
  cases hv with
  | @outside slot v isOutside stored =>
    have hslots := hc.unique slot (.inNode a p) v w n stored hslot hn hwn
    subst hslots
    cases isOutside
  | @inside u v id q has node isNoKey stored =>
    have hslots := hc.unique (.inNode id q) (.inNode a p) v w n stored hslot hn hwn
    cases hslots
    rcases hplace with ⟨index, hkey⟩ | hinside
    · exact absurd hkey (isNoKey index)
    · obtain ⟨k, hk, hreach⟩ := hc.lent.has has node hinside
      exact ⟨k, hk, hreach.child ⟨_, _, hw, hwn⟩⟩
  | @former u v id node has refers found left =>
    have hleft : c.heap.Left id v := ⟨node, found, left⟩
    obtain ⟨q, hslots⟩ := hc.left id v (.inNode a p) w n hleft hn hslot hwn
    cases hslots
    rcases hplace with ⟨index, rfl⟩ | hinside
    · -- The container is a list, and a list has no keys.
      rw [hleft.not_key index] at hw
      cases hw
    · obtain ⟨k, hk, hreach⟩ := hc.lent.has has refers hinside
      exact ⟨k, hk, hreach.child ⟨_, _, hw, hwn⟩⟩

/-- Getting hold of one more value, by a way that was lent if it is inside a key. -/
theorem Owned.get (hc : c.Owned) {v : Value} (hv : c.heap.Valid v) {lent : List Value}
    (hmore : c.lent ⊆ lent)
    (hway : ∀ n, v.node? = some n → c.heap.InKey n → ∃ k ∈ lent, c.heap.Reaches k n) :
    Owned ⟨c.session, v :: c.handles, lent⟩ where
  sound := hc.sound.get hv lent
  unique := hc.unique
  left := hc.left
  lent := by
    intro w hw n hn hin
    rcases List.mem_cons.mp hw with rfl | hold
    · exact hway n hn hin
    · obtain ⟨k, hk, hreach⟩ := hc.lent w hold n hn hin
      exact ⟨k, hmore hk, hreach⟩
  distinct := hc.distinct

/-- **Operations are no way into a key.** What an operation hands out is stored nowhere, and no
    old container gets into a key. -/
theorem Owned.lent_perform (hc : c.Owned) {op : Operation}
    (hmove : (Move.operate op).Allowed c) (hspared : ¬c.Disturbs (.operate op)) :
    (c.play (.operate op)).LentOnly := by
  have hchange := (Session.Change.perform hc.sound.session hmove.1).onHeap
  intro v hv n hn hin
  rcases List.mem_cons.mp hv with rfl | hold
  · obtain ⟨a, p, w, hw, hwn, -⟩ := hin.stored
    rcases op.result_cases hc.sound.session with hnil | hnew
    · rw [hnil] at hn
      cases hn
    · exact absurd hwn (hnew.root_free n hn a p w hw)
  · have hlt : n < c.heap.nodes.size := (hc.sound.handles v hold).lt_size hn
    obtain ⟨k, hk, hreach⟩ := hc.lent v hold n hn (hchange.inKey_old hlt hin)
    -- The way from the lent key to the container is still there.
    exact ⟨k, hk, hreach.kept fun m node hm hnode => kept_of_not_disturbs hspared hk hm hnode⟩

/-- **One operation keeps keys distinct.** If it changes a container inside a key, the client
    was lent that key. -/
theorem Owned.distinct_perform (hc : c.Owned) {op : Operation}
    (hmove : (Move.operate op).Allowed c) (hspared : ¬c.Disturbs (.operate op)) :
    (c.play (.operate op)).heap.DistinctKeys := by
  refine (c.session.heapStep_perform op).distinctKeys hc.sound.session.heap hc.distinct hmove.1 ?_
  intro v hv n hn hin
  obtain ⟨k, hk, hreach⟩ := hc.lent.has (hmove.2 v hv) hn hin
  obtain ⟨node, hnode, -⟩ := hc.sound.valid (hmove.2 v hv) n hn
  exact (kept_of_not_disturbs hspared hk hreach hnode).trans hnode.symm

/-- **One move** that disturbs no lent key. -/
theorem Owned.play (hc : c.Owned) (hmove : move.Allowed c) (hspared : ¬c.Disturbs move) :
    (c.play move).Owned := by
  cases move with
  | operate op =>
    have hchange := Session.Change.perform hc.sound.session hmove.1
    exact
      { sound := hc.sound.play hmove
        unique := hchange.unique hc.unique
        left := hc.left.perform hc.sound.session hc.unique hmove.1
        lent := hc.lent_perform hmove hspared
        distinct := hc.distinct_perform hmove hspared }
  | read v =>
    refine hc.get (Client.Reads.valid hmove hc.sound) (List.Subset.refl _) ?_
    exact fun n hn hin => hc.lent_of_reads hmove hn hin
  | lend key =>
    obtain ⟨id, index, -, hkey⟩ := hmove
    refine hc.get (hc.sound.session.heap.stored id _ key hkey) (List.subset_cons_self _ _) ?_
    exact fun n hn _ => ⟨key, List.mem_cons_self, Heap.reaches_of_node? hn⟩

end Client

variable {c c' : Client} {moves : List Move}

/-- **A play that spares lent keys.** -/
theorem Play.owned (hplay : Play c moves c') (hc : c.Owned) (hspared : c.SparesLent moves) :
    c'.Owned := by
  induction hplay with
  | done c => exact hc
  | step allowed _ ih => exact ih (hc.play allowed hspared.1) hspared.2

/-- Operations that change no container spare every key. -/
theorem Play.sparesLent (hplay : Play c moves c') (hs : c.Sound)
    (huses : ∀ move ∈ moves, ∃ op, move = .operate op ∧ op.uses = []) : c.SparesLent moves := by
  induction hplay with
  | done c => trivial
  | @step c c' move moves allowed _ ih =>
    refine ⟨?_, ih (hs.play allowed) fun m hm => huses m (List.mem_cons_of_mem _ hm)⟩
    obtain ⟨op, rfl, hop⟩ := huses move List.mem_cons_self
    rintro ⟨k, -, n, node, -, hnode, hchanged⟩
    have holder := (c.session.heapStep_perform op).older hs.session.heap allowed.1 hop
    exact hchanged ((holder n (Heap.lt_size_of_getElem? hnode)).trans hnode)

/-- **The keys of an object differ as long as lent keys are spared.** However objects are built
    and stored in, and whatever becomes of the values that their keys were copied from: unless a
    key is changed that a walk has shown, no object ever has two equal keys. Evaluating code and
    loading an image there is again a play, and loading disturbs no key. -/
theorem keys_differ_while_lent_keys_spared {id name : Bytes} {writable : Bool}
    {moves : List Move} {c : Client} (hplay : Play (.new id name writable) moves c)
    (hspared : (Client.new id name writable).SparesLent moves) :
    (∀ n o, c.heap.object? n = some o → ∀ (i j : Nat) a b, i < j →
        o.keys[i]? = some a → o.keys[j]? = some b →
        (c.heap.view a).equal (c.heap.view b) = false) ∧
      (∀ fuel e, ∃ more c', Play c more c' ∧
        c'.session = c.session.after (Action.eval fuel e) ∧
          ∀ v, c.session.result (Action.eval fuel e) = .ok v → c'.Has v) ∧
      ∀ image count m, Image.loadGlobals image c.session.machine = .ok (count, m) →
        ∃ more c', Play c more c' ∧ c'.session = ⟨m, c.session.callers⟩ ∧ c.SparesLent more := by
  have howned := hplay.owned (Client.owned_new id name writable) hspared
  refine ⟨?_, ?_, ?_⟩
  · intro n o ho i j a b hij ha hb
    rw [← Array.getElem?_toList] at ha hb
    obtain ⟨hi, rfl⟩ := List.getElem?_eq_some_iff.mp ha
    obtain ⟨hj, rfl⟩ := List.getElem?_eq_some_iff.mp hb
    exact List.pairwise_iff_getElem.mp (howned.distinct n o ho) i j hi hj hij
  · intro fuel e
    exact (played_eval fuel e c howned.sound).play
  · intro image count m hload
    obtain ⟨ops, hrun, huses⟩ := run_loadGlobals howned.sound.session hload
    obtain ⟨c', hmore, hsession⟩ := hrun.play huses rfl
    refine ⟨_, c', hmore, hsession, hmore.sparesLent howned.sound ?_⟩
    intro move hmove
    obtain ⟨op, hop, rfl⟩ := List.mem_map.mp hmove
    exact ⟨op, rfl, huses op hop⟩

/-- A list is used as a key, a walk shows that key, and then the list itself grows and is used
    once more. Now the object has two keys, and they differ. -/
theorem keys_differ_after_list_grows :
    ∃ (moves : List Move) (c : Client),
      moves = [.operate (.blank .list), .operate (.blank .object),
        .operate (.store 1 (.list 0) .nil), .lend (.list 2),
        .operate (.append 0 (.boolean true)), .operate (.store 1 (.list 0) .nil)] ∧
      Play (.new [] [] true) moves c ∧ (Client.new [] [] true).SparesLent moves ∧
      (∃ o, c.heap.object? 1 = some o ∧ o.keys = #[.list 2, .list 3] ∧
        o.values = #[.nil, .nil]) ∧
      (c.heap.view (.list 2)).equal (c.heap.view (.list 3)) = false := by
  have hblank : ∀ (c : Client) kind, (Move.operate (.blank kind)).Allowed c :=
    fun c kind => Operation.allowed_of_valid (fun v hv => by cases hv) rfl
  -- What is changed are the list and the object that the client was handed.
  have hstore : ∀ c : Client, (∃ l, c.heap.nodes[0]? = some (.list l)) →
      (∃ o, c.heap.nodes[1]? = some (.object o)) → .object 1 ∈ c.handles →
      (Move.operate (.store 1 (.list 0) .nil)).Allowed c := by
    rintro c ⟨l, hl⟩ ⟨o, ho⟩ hmem
    refine ⟨?_, fun v hv => by rw [List.mem_singleton.mp hv]; exact .inr hmem⟩
    intro v hv id hid
    simp only [Operation.handles, List.mem_cons, List.not_mem_nil, or_false] at hv
    rcases hv with rfl | rfl | rfl <;> cases hid
    · exact ⟨_, ho, trivial⟩
    · exact ⟨_, hl, trivial⟩
  have happend : ∀ c : Client, (∃ l, c.heap.nodes[0]? = some (.list l)) → .list 0 ∈ c.handles →
      (Move.operate (.append 0 (.boolean true))).Allowed c := by
    rintro c ⟨l, hl⟩ hmem
    refine ⟨?_, fun v hv => by rw [List.mem_singleton.mp hv]; exact .inr hmem⟩
    intro v hv id hid
    simp only [Operation.handles, List.mem_cons, List.not_mem_nil, or_false] at hv
    rcases hv with rfl | rfl <;> cases hid
    exact ⟨_, hl, trivial⟩
  have hlend : ∀ c : Client, .object 1 ∈ c.handles →
      c.heap.at? 1 (.key 0) = some (.list 2) → (Move.lend (.list 2)).Allowed c :=
    fun c hmem hkey => ⟨1, 0, .inr hmem, hkey⟩
  have hplay := Play.step (hblank (.new [] [] true) .list) <| Play.step (hblank _ .object) <|
    Play.step (hstore _ ⟨_, rfl⟩ ⟨_, rfl⟩ (by decide)) <| Play.step (hlend _ (by decide) rfl) <|
    Play.step (happend _ ⟨_, rfl⟩ (by decide)) <|
    Play.single (hstore _ ⟨_, rfl⟩ ⟨_, rfl⟩ (by decide))
  have hnone : ∀ (c : Client) move, c.lent = [] → ¬c.Disturbs move := by
    rintro c move hlent ⟨k, hk, -⟩
    rw [hlent] at hk
    cases hk
  -- The key that was lent is an empty list, and it stays one.
  have hempty : ∀ (c : Client) move, c.lent = [.list 2] →
      c.heap.nodes[2]? = some (.list (.of 0 #[])) →
      (c.play move).heap.nodes[2]? = some (.list (.of 0 #[])) → ¬c.Disturbs move := by
    rintro c move hlent hbefore hafter ⟨k, hk, n, node, hreach, hnode, hchanged⟩
    rw [hlent] at hk
    rw [List.mem_singleton.mp hk] at hreach
    rcases hreach.cases with heq | ⟨id, p, w, hid, hw, -⟩
    · cases heq
      rw [hbefore] at hnode
      cases hnode
      exact hchanged hafter
    · cases hid
      rw [Heap.at?_of_node hbefore] at hw
      cases p <;> cases hw
  refine ⟨_, _, rfl, hplay, ?spared, ⟨_, rfl, rfl, rfl⟩,
    (keys_differ_while_lent_keys_spared hplay ?spared).1 1 _ rfl 0 1 _ _ (by decide) rfl rfl⟩
  exact ⟨hnone _ _ rfl, hnone _ _ rfl, hnone _ _ rfl, hnone _ _ rfl, hempty _ _ rfl rfl rfl,
    hempty _ _ rfl rfl rfl, trivial⟩

/-- Whoever changes the key that was lent can make it equal to the other one. -/
example :
    let moves : List Move := [.operate (.blank .list), .operate (.blank .object),
      .operate (.store 1 (.list 0) .nil), .lend (.list 2),
      .operate (.append 0 (.boolean true)), .operate (.store 1 (.list 0) .nil),
      .operate (.append 2 (.boolean true))]
    let c := moves.foldl Client.play (.new [] [] true)
    (c.heap.view (.list 2)).equal (c.heap.view (.list 3)) = true := by
  decide +kernel

end ValueRuntime
