import ValueRuntime.Proofs.Heap.Balance
import ValueRuntime.Proofs.Heap.Contents

/-! # Values that share no node

    Two values are *apart* when no node is reached from both. Appending to a list, replacing an
    item and storing in an object change one old node, the one of the container they are given,
    and whatever they place in it is new. So a change through one of two values that are apart
    leaves the contents of the other as they were, and leaves the two apart.
-/

namespace ValueRuntime

namespace Heap

variable {h h' : Heap} {u v w receiver : Value}

/-! ## Changes through a value -/

/-- **A change through a value:** of the old nodes, only the one that it refers to may have
    changed. -/
structure ChangeThrough (h h' : Heap) (receiver : Value) : Prop where
  change : Change h h' .nil
  others : ∀ n : Nat, n < h.nodes.size → receiver.node? ≠ some n → h'.nodes[n]? = h.nodes[n]?

theorem ChangeThrough.refl (hs : h.Sound) (receiver : Value) : ChangeThrough h h receiver where
  change := Change.refl hs
  others := by
    intro n _ _
    rfl

/-- Placing a copy in a node leaves the other old nodes as they are. -/
theorem getElem?_put_copy_ne {id n : NodeId} (node : Node) (v : Value) (hn : n < h.nodes.size)
    (hne : id ≠ n) : ((h.copy v).2.put id node).nodes[n]? = h.nodes[n]? := by
  rw [getElem?_put_ne node hne]
  exact getElem?_alloc_old h (h.view v) hn

theorem ChangeThrough.append (hs : h.Sound) {id : NodeId} (hid : h.Valid (.list id)) (v : Value) :
    ChangeThrough h (h.append id v) (.list id) where
  change := Change.append hs hid v
  others := by
    intro n hn hne
    have hother : id ≠ n := fun heq => hne (congrArg some heq)
    obtain ⟨l, hl⟩ := hid.list
    have hsize : n < (h.put id (.list l.grown)).nodes.size := by simpa using hn
    rw [append_of_list hl, getElem?_put_copy_ne _ v hsize hother, getElem?_put_ne _ hother]

theorem ChangeThrough.replaceItem (hs : h.Sound) (id : NodeId) (index : Nat) (v : Value) :
    ChangeThrough h (h.replaceItem id index v).2 (.list id) where
  change := Change.replaceItem hs id index v
  others := by
    intro n hn hne
    have hother : id ≠ n := fun heq => hne (congrArg some heq)
    rcases replaceItem_cases h id index v with ⟨l, -, hafter⟩ | hafter
    · rw [hafter, getElem?_put_copy_ne _ v hn hother]
    · rw [hafter]

theorem ChangeThrough.store (hs : h.Sound) {id : NodeId} {key : Value}
    (hst : h.store id key v = .ok h') : ChangeThrough h h' (.object id) where
  change := Change.store hs hst
  others := by
    intro n hn hne
    have hother : id ≠ n := fun heq => hne (congrArg some heq)
    obtain ⟨o, ho, ⟨index, -, -, rfl⟩ | ⟨-, rfl⟩⟩ := store_cases hst
    · exact getElem?_put_copy_ne _ v hn hother
    · -- The value is copied after the key was placed, which left the other nodes alone too.
      have hkeyed := Change.withKey hs (object?_eq_some_iff.mp ho) key
      rw [getElem?_put_copy_ne _ v (Nat.lt_of_lt_of_le hn hkeyed.size_le) hother,
        getElem?_withKey_ne hn hother]

/-- What does not reach the receiver of a change holds what it held. -/
theorem ChangeThrough.view_of_not_reaches (hc : ChangeThrough h h' receiver) (hs : h.Sound)
    (hw : h.Valid w) (hno : ∀ n, receiver.node? = some n → ¬h.Reaches w n) :
    h'.view w = h.view w := by
  refine view_of_agree hs hc.change.size_le hw ?_
  intro n hn
  refine hc.others n (hs.reaches_lt_size hw hn) ?_
  intro hreceiver
  exact hno n hreceiver hn

/-! ## Reaching old nodes -/

/-- **No new way to an old node.** New edges lead to new nodes, and from there to later ones
    only. -/
theorem Change.reaches_old {root : Value} (hc : Change h h' root) {n : Nat}
    (hn : n < h.nodes.size) (hreach : h'.Reaches v n) : h.Reaches v n := by
  obtain ⟨start, hstart, hpath⟩ := hreach
  induction hpath with
  | refl => exact reaches_of_node? hstart
  | @tail a b _ hlast ih =>
    have hab : a < b := hc.sound.ascending a b hlast
    have hold : h.Reaches v a := ih (Nat.lt_trans hab hn)
    obtain ⟨p, x, hx, hb⟩ := hlast
    rcases hc.kept a p x hx with hkept | hnew
    · exact hold.child ⟨p, x, hkept, hb⟩
    · have hle := hnew b hb
      omega

/-! ## Values apart -/

/-- **Two values are apart** when no node is reached from both. -/
def Apart (h : Heap) (v w : Value) : Prop := ∀ n, h.Reaches v n → ¬h.Reaches w n

theorem Apart.symm (hvw : h.Apart v w) : h.Apart w v := fun n hw hv => hvw n hv hw

/-- What is stored in one of two values that are apart is apart from the other. -/
theorem Apart.stored (hvw : h.Apart v w) {id : NodeId} {p : Place} (hid : v.node? = some id)
    (hu : h.at? id p = some u) : h.Apart u w :=
  fun n hn => hvw n (.of_stored hid hu hn)

/-- A value that is apart from the receiver of a change reaches only nodes that stay. -/
theorem ChangeThrough.agree (hc : ChangeThrough h h' receiver) (hs : h.Sound) (hw : h.Valid w)
    (happart : h.Apart receiver w) (n : NodeId) (hn : h.Reaches w n) :
    h'.nodes[n]? = h.nodes[n]? := by
  apply hc.others n (hs.reaches_lt_size hw hn)
  intro hreceiver
  exact happart n (reaches_of_node? hreceiver) hn

/-- **A change through one of two values that are apart** leaves the contents of the other. -/
theorem ChangeThrough.view_eq (hc : ChangeThrough h h' receiver) (hs : h.Sound) (hw : h.Valid w)
    (happart : h.Apart receiver w) : h'.view w = h.view w :=
  view_of_agree hs hc.change.size_le hw (hc.agree hs hw happart)

/-- **Values stay apart** from the value that a change did not go through. -/
theorem ChangeThrough.apart (hc : ChangeThrough h h' receiver) (hs : h.Sound) (hw : h.Valid w)
    (hreceiver : h.Apart receiver w) (huw : h.Apart u w) : h'.Apart u w := by
  intro n hu hn
  -- What `w` reaches now it reached before, so it is old, and `u` reached it before as well.
  have hold : h.Reaches w n := hn.of_agree (hc.agree hs hw hreceiver)
  have hlt : n < h.nodes.size := hs.reaches_lt_size hw hold
  exact huw n (hc.change.reaches_old hlt hu) hold

/-- Nodes of an older heap are reached in a later one as they were. -/
theorem Older.reaches (hold : h.Older h') (hs : h.Sound) (hv : h.Valid v) {n : NodeId}
    (hn : h'.Reaches v n) : h.Reaches v n :=
  hn.of_agree fun m hm => hold m (hs.reaches_lt_size hv hm)

end Heap

end ValueRuntime
