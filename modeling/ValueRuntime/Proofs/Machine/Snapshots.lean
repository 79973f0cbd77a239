import ValueRuntime.Proofs.Machine.Ownership

/-! # Snapshots

    An iteration reads a copy of a value, which was taken when the iteration began. It hands out
    the items of a list as they are, without copying them once more, so whoever gets such an item
    can change it for good. What lies *ahead* of the iteration is out of reach nevertheless: the
    copy is stored nowhere else, and since values form a forest there is no way from what was
    handed out to what was not.

    A client is *sealed* off from what lies ahead. Every move of a client keeps it sealed off, and
    so does handing out the next item, which from then on no longer lies ahead.
-/

namespace ValueRuntime

/-- A place that an iteration has not passed. Only items are passed, for the keys and values of an
    object are copied when they are handed out. -/
def Place.IsAhead (position : Nat) : Place → Prop
  | .item index => position ≤ index
  | _ => True

/-- **A value whose elements can be told:** if it is an object then it has as many values as
    keys. -/
def Heap.Paired (h : Heap) (v : Value) : Prop :=
  ∀ id o, v = .object id → h.object? id = some o → o.keys.size = o.values.size

/-- **A snapshot:** a value, and the heap at the moment when it was taken. Every object in it has
    contents, since it is a copy. -/
structure Snapshot where
  heap : Heap
  root : Value
  sound : heap.Sound
  valid : heap.Valid root
  paired : heap.Paired root
  whole : (heap.view root).isWhole = true

namespace Snapshot

variable {snap : Snapshot} {position : Nat} {n id : NodeId}

/-- **What lies ahead** at a position: the node of the snapshot, and all that is reached from the
    places that were not passed. -/
def Ahead (snap : Snapshot) (position : Nat) (n : NodeId) : Prop :=
  ∃ id, snap.root.node? = some id ∧
    (n = id ∨ ∃ p w, p.IsAhead position ∧ snap.heap.at? id p = some w ∧ snap.heap.Reaches w n)

theorem ahead_root (position : Nat) (hid : snap.root.node? = some id) : snap.Ahead position id :=
  ⟨id, hid, .inl rfl⟩

theorem ahead_of_reaches {p : Place} {w : Value} (hid : snap.root.node? = some id)
    (hw : snap.heap.at? id p = some w) (hp : p.IsAhead position) (hn : snap.heap.Reaches w n) :
    snap.Ahead position n :=
  ⟨id, hid, .inr ⟨p, w, hp, hw, hn⟩⟩

theorem Ahead.reaches (hn : snap.Ahead position n) : snap.heap.Reaches snap.root n := by
  obtain ⟨id, hid, heq | ⟨p, w, -, hw, hreach⟩⟩ := hn
  · rw [heq]
    exact Heap.reaches_of_node? hid
  · exact hreach.of_stored hid hw

theorem Ahead.lt_size (hn : snap.Ahead position n) : n < snap.heap.nodes.size :=
  snap.sound.reaches_lt_size snap.valid hn.reaches

/-- Less and less lies ahead. -/
theorem Ahead.of_later {later : Nat} (hle : position ≤ later) (hn : snap.Ahead later n) :
    snap.Ahead position n := by
  obtain ⟨id, hid, heq | ⟨p, w, hp, hw, hreach⟩⟩ := hn
  · rw [heq]
    exact ahead_root position hid
  · refine ahead_of_reaches hid hw ?_ hreach
    cases p with
    | item index => exact Nat.le_trans hle hp
    | key index => trivial
    | value index => trivial

/-- **What lies ahead is stored in what lies ahead,** except for the node of the snapshot. In that
    node it is stored at a place that was not passed. -/
theorem Ahead.stored (hn : snap.Ahead position n) (hroot : snap.root.node? ≠ some n) :
    ∃ a p w, snap.Ahead position a ∧ (snap.root.node? = some a → p.IsAhead position) ∧
      snap.heap.at? a p = some w ∧ w.node? = some n := by
  obtain ⟨id, hid, heq | ⟨p, w, hp, hw, first, hfirst, hpath⟩⟩ := hn
  · rw [heq] at hroot
    exact absurd hid hroot
  · rcases hpath.cases_tail with rfl | ⟨a, hbefore, q, u, hu, hun⟩
    · exact ⟨id, p, w, ahead_root position hid, fun _ => hp, hw, hfirst⟩
    · refine ⟨a, q, u, ahead_of_reaches hid hw hp ⟨first, hfirst, hbefore⟩, ?_, hu, hun⟩
      -- The last node on the way comes after the node of the snapshot.
      intro ha
      rw [hid] at ha
      cases ha
      exact absurd ⟨first, hfirst, hbefore⟩ (snap.sound.not_reaches_of_stored hw)

end Snapshot

namespace Client

variable {c : Client} {snap : Snapshot} {position : Nat} {n a : NodeId} {v : Value}

/-- **A client that is sealed off** from what lies ahead in a snapshot: all of that is as it was
    when the snapshot was taken, nothing stores the snapshot, and the client has nothing that
    lies ahead. -/
structure Sealed (c : Client) (snap : Snapshot) (position : Nat) : Prop where
  sound : c.Sound
  unique : c.session.Unique
  left : c.session.LeftOwned
  size_le : snap.heap.nodes.size ≤ c.heap.nodes.size
  kept : ∀ n, snap.Ahead position n → c.heap.nodes[n]? = snap.heap.nodes[n]?
  /-- No slot stores the snapshot. -/
  notStored : ∀ slot v n, c.session.at? slot = some v → snap.root.node? = some n →
    v.node? ≠ some n
  /-- No list has left the snapshot in a room. -/
  notLeft : ∀ a v n, c.heap.Left a v → snap.root.node? = some n → v.node? ≠ some n
  handles : ∀ v ∈ c.handles, ∀ n, v.node? = some n → ¬snap.Ahead position n

theorem Sealed.at?_eq (hc : c.Sealed snap position) (ha : snap.Ahead position a) (p : Place) :
    c.heap.at? a p = snap.heap.at? a p := by
  unfold Heap.at?
  rw [hc.kept a ha]

/-- What an unpassed place holds is as it was. -/
theorem Sealed.view_eq (hc : c.Sealed snap position) {id : NodeId} {p : Place} {w : Value}
    (hid : snap.root.node? = some id) (hw : snap.heap.at? id p = some w)
    (hp : p.IsAhead position) : c.heap.view w = snap.heap.view w := by
  refine Heap.view_of_agree snap.sound hc.size_le (snap.sound.stored id p w hw) ?_
  intro n hn
  exact hc.kept n (Snapshot.ahead_of_reaches hid hw hp hn)

/-- **A slot that stores what lies ahead** is in a node that lies ahead, for a node is stored
    once. -/
theorem Sealed.slot_of_ahead (hc : c.Sealed snap position) {slot : Slot}
    (hv : c.session.at? slot = some v) (hn : v.node? = some n) (hahead : snap.Ahead position n) :
    ∃ a p, slot = .inNode a p ∧ snap.Ahead position a ∧
      (snap.root.node? = some a → p.IsAhead position) := by
  by_cases hroot : snap.root.node? = some n
  · exact absurd hn (hc.notStored slot v n hv hroot)
  · obtain ⟨a, p, w, ha, hp, hw, hwn⟩ := hahead.stored hroot
    have hslot : c.session.at? (.inNode a p) = some w := (hc.at?_eq ha p).trans hw
    exact ⟨a, p, hc.unique slot (.inNode a p) v w n hv hslot hn hwn, ha, hp⟩

/-- A list that has left what lies ahead lies ahead itself. -/
theorem Sealed.ahead_of_left (hc : c.Sealed snap position) (hleft : c.heap.Left a v)
    (hn : v.node? = some n) (hahead : snap.Ahead position n) : snap.Ahead position a := by
  by_cases hroot : snap.root.node? = some n
  · exact absurd hn (hc.notLeft a v n hleft hroot)
  · obtain ⟨b, p, w, hb, -, hw, hwn⟩ := hahead.stored hroot
    have hslot : c.session.at? (.inNode b p) = some w := (hc.at?_eq hb p).trans hw
    obtain ⟨q, hslots⟩ := hc.left a v (.inNode b p) w n hleft hn hslot hwn
    cases hslots
    exact hb

/-! ## Moves -/

theorem Sealed.not_ahead_of_has (hc : c.Sealed snap position) (hv : c.Has v)
    (hn : v.node? = some n) : ¬snap.Ahead position n := by
  rcases hv with hscalar | hmem
  · rw [hscalar] at hn
    cases hn
  · exact hc.handles v hmem n hn

/-- **Reading is no way to what lies ahead.** -/
theorem Sealed.not_ahead_of_reads (hc : c.Sealed snap position) (hv : c.Reads v)
    (hn : v.node? = some n) : ¬snap.Ahead position n := by
  intro hahead
  cases hv with
  | @outside slot v isOutside stored =>
    obtain ⟨a, p, hslot, -, -⟩ := hc.slot_of_ahead stored hn hahead
    rw [hslot] at isOutside
    exact isOutside
  | @inside w v id p has node isNoKey stored =>
    have hinside : c.session.at? (.inNode id p) = some v := stored
    obtain ⟨a, q, hslot, ha, -⟩ := hc.slot_of_ahead hinside hn hahead
    cases hslot
    exact hc.not_ahead_of_has has node ha
  | @former w v id node has refers found left =>
    exact hc.not_ahead_of_has has refers (hc.ahead_of_left ⟨node, found, left⟩ hn hahead)

/-- Getting hold of a value that does not lie ahead. -/
theorem Sealed.get (hc : c.Sealed snap position) (hv : c.heap.Valid v)
    (hout : ∀ n, v.node? = some n → ¬snap.Ahead position n) (lent : List Value) :
    Sealed ⟨c.session, v :: c.handles, lent⟩ snap position where
  sound := hc.sound.get hv lent
  unique := hc.unique
  left := hc.left
  size_le := hc.size_le
  kept := hc.kept
  notStored := hc.notStored
  notLeft := hc.notLeft
  handles := by
    intro w hw
    rcases List.mem_cons.mp hw with rfl | hold
    · exact hout
    · exact hc.handles w hold

/-- **Operations are no way to what lies ahead.** They change only what the client has, and what
    they hand out is new. -/
theorem Sealed.perform (hc : c.Sealed snap position) {op : Operation}
    (hmove : (Move.operate op).Allowed c) : (c.play (.operate op)).Sealed snap position := by
  have hs := hc.sound.session
  have hchange := Session.Change.perform hs hmove.1
  have hstep := c.session.heapStep_perform op
  -- Whatever the snapshot refers to was there before the operation.
  have hold : ∀ n, snap.Ahead position n → n < c.heap.nodes.size :=
    fun n hn => Nat.lt_of_lt_of_le hn.lt_size hc.size_le
  refine
    { sound := hc.sound.play hmove
      unique := hchange.unique hc.unique
      left := hc.left.perform hs hc.unique hmove.1
      size_le := Nat.le_trans hc.size_le hchange.later.size_le
      kept := ?_
      notStored := ?_
      notLeft := ?_
      handles := ?_ }
  · intro n hn
    have hother : ∀ v ∈ op.uses, v.node? ≠ some n :=
      fun v hv hvn => hc.not_ahead_of_has (hmove.2 v hv) hvn hn
    exact (hstep.others hs.heap hmove.1 (hold n hn) hother).trans (hc.kept n hn)
  · intro slot v n hv hroot hn
    rcases hchange.kept slot v hv with hbefore | hnew
    · exact hc.notStored slot v n hbefore hroot hn
    · have hlt := hold n (Snapshot.ahead_root position hroot)
      exact absurd hlt (Nat.not_lt_of_le (hnew n hn))
  · intro a v n hv hroot
    rcases hstep.left hmove.1 hv with hbefore | ⟨p, hp⟩
    · exact hc.notLeft a v n hbefore hroot
    · exact hc.notStored (.inNode a p) v n hp hroot
  · intro v hv n hn hahead
    rcases List.mem_cons.mp hv with rfl | hmem
    · rcases op.result_cases hs with hnil | hnew
      · rw [hnil] at hn
        cases hn
      · exact absurd (hold n hahead) (Nat.not_lt_of_le (hnew.root_new n hn))
    · exact hc.handles v hmem n hn hahead

/-- **One move** of a client that is sealed off. -/
theorem Sealed.play (hc : c.Sealed snap position) {move : Move} (hmove : move.Allowed c) :
    (c.play move).Sealed snap position := by
  cases move with
  | operate op => exact hc.perform hmove
  | read v =>
    exact hc.get (Client.Reads.valid hmove hc.sound)
      (fun n hn => hc.not_ahead_of_reads hmove hn) c.lent
  | lend key =>
    obtain ⟨id, index, has, hkey⟩ := hmove
    refine hc.get (hc.sound.session.heap.stored id _ key hkey) ?_ (key :: c.lent)
    intro n hn hahead
    have hinside : c.session.at? (.inNode id (.key index)) = some key := hkey
    obtain ⟨a, p, hslot, ha, -⟩ := hc.slot_of_ahead hinside hn hahead
    cases hslot
    exact hc.not_ahead_of_has has rfl ha

/-! ## Taking a snapshot and moving on -/

theorem Sealed.later {later : Nat} (hc : c.Sealed snap position) (hle : position ≤ later) :
    c.Sealed snap later where
  sound := hc.sound
  unique := hc.unique
  left := hc.left
  size_le := hc.size_le
  kept := fun n hn => hc.kept n (hn.of_later hle)
  notStored := hc.notStored
  notLeft := hc.notLeft
  handles := fun v hv n hn hahead => hc.handles v hv n hn (hahead.of_later hle)

/-- **Handing out the next item.** It is stored at a place that is passed now, and nowhere else,
    so nothing that still lies ahead leads to it. -/
theorem Sealed.item (hc : c.Sealed snap position) {id : NodeId} {w : Value}
    (hid : snap.root.node? = some id) (hw : snap.heap.at? id (.item position) = some w) :
    Sealed ⟨c.session, w :: c.handles, c.lent⟩ snap (position + 1) := by
  have hstored : c.session.at? (.inNode id (.item position)) = some w :=
    (hc.at?_eq (Snapshot.ahead_root position hid) _).trans hw
  have hpassed := hc.later (Nat.le_succ position)
  refine hpassed.get (hc.sound.session.heap.stored id _ w hstored) ?_ c.lent
  intro n hn hahead
  obtain ⟨a, p, hslot, -, hp⟩ := hpassed.slot_of_ahead hstored hn hahead
  cases hslot
  exact Nat.not_succ_le_self position (hp hid)

end Client

/-- The copy of an object has as many values as keys if the object does. -/
theorem Heap.Paired.copy {h : Heap} {v : Value} (hpaired : h.Paired v) (hs : h.Sound)
    (hv : h.Valid v) : (h.copy v).2.Paired (h.copy v).1 := by
  intro id o hroot ho
  have hview := view_copy hs v
  rw [hroot, (Change.copy hs v).sound.view_object (object?_eq_some_iff.mp ho)] at hview
  have hwalk := hs.unfolds_view hv
  generalize h.view v = d at hview hwalk
  -- Only an object has an object for a copy, and one without contents has an empty one.
  cases hwalk with
  | object hnode hkeys hvalues =>
    have hsizes := hpaired _ _ rfl (object?_eq_some_iff.mpr hnode)
    obtain ⟨-, hkeys', hvalues'⟩ := Datum.object.inj hview
    have hlength := congrArg List.length hkeys'
    have hlength' := congrArg List.length hvalues'
    simp only [Datum.filledAll_eq_map, List.length_map, Array.length_toList] at hlength hlength'
    rw [hlength, hlength', ← hkeys.length_eq, ← hvalues.length_eq]
    exact hsizes
  | hollow hnode =>
    obtain ⟨-, hkeys', hvalues'⟩ := Datum.object.inj hview
    simp_all
  | _ => cases hview

/-- The snapshot of a value: the copy that an iteration takes. -/
def Snapshot.of {h : Heap} {v : Value} (hs : h.Sound) (hv : h.Valid v) (hpaired : h.Paired v) :
    Snapshot where
  heap := (h.copy v).2
  root := (h.copy v).1
  sound := (Heap.Change.copy hs v).sound
  valid := (Heap.Change.copy hs v).root_valid
  paired := hpaired.copy hs hv
  whole := by
    rw [Heap.view_copy hs]
    exact Datum.isWhole_filled _

/-- **A client is sealed off from a snapshot** when it is taken, for all nodes of it are new. -/
theorem Client.sealed_copy {c : Client} {v : Value} (hs : c.Sound) (hunique : c.session.Unique)
    (hleft : c.session.LeftOwned) (hv : c.heap.Valid v) (hpaired : c.heap.Paired v) :
    Sealed ⟨c.session.perform (.build (.value v)), c.handles, c.lent⟩
      (.of hs.session.heap hv hpaired) 0 := by
  have hop : (Operation.build (.value v)).Allowed c.session := by
    intro w hw
    rw [List.mem_singleton.mp hw]
    exact hv
  have hchange := Session.Change.perform hs.session hop
  have hcopy : Heap.Change c.heap (c.heap.copy v).2 (c.heap.copy v).1 :=
    Heap.Change.copy hs.session.heap v
  refine
    { sound := ⟨hchange.sound, fun w hw => hchange.later.valid (hs.handles w hw), hs.frames⟩
      unique := hchange.unique hunique
      left := hleft.perform hs.session hunique hop
      size_le := Nat.le_refl _
      kept := fun n _ => rfl
      notStored := ?_
      notLeft := ?_
      handles := ?_ }
  · intro slot w n hw hroot hn
    rcases slot.inNode_or_isOutside with ⟨a, p, rfl⟩ | hout
    · exact hcopy.root_free n hroot a p w hw hn
    · -- Outside of the heap nothing changes.
      have hbefore : c.session.at? slot = some w := by
        cases slot with
        | inNode a p => cases hout
        | cell id => exact hw
        | snapshot level name => exact hw
      exact absurd (hs.session.lt_size hbefore hn) (Nat.not_lt_of_le (hcopy.root_new n hroot))
  · intro a w n hw hroot hn
    have hbefore : c.heap.Left a w := Heap.Left.of_alloc hw
    have hvalid : c.heap.Valid w := hbefore.valid hs.session.heap
    exact absurd (hvalid.lt_size hn) (Nat.not_lt_of_le (hcopy.root_new n hroot))
  · intro w hw n hn hahead
    have hnew : c.heap.nodes.size ≤ n := Heap.le_of_reaches_copy hs.session.heap hahead.reaches
    exact absurd ((hs.handles w hw).lt_size hn) (Nat.not_lt_of_le hnew)

/-- What lists have left stays their own along a run. -/
theorem Run.leftOwned {s s' : Session} {ops : List Operation} (hrun : Run s ops s')
    (hs : s.Sound) (hunique : s.Unique) (hleft : s.LeftOwned) : s'.LeftOwned := by
  induction hrun with
  | done s => exact hleft
  | step allowed _ ih =>
    have hchange := Session.Change.perform hs allowed
    exact ih hchange.sound (hchange.unique hunique) (hleft.perform hs hunique allowed)

variable {c c' : Client} {moves : List Move} {snap : Snapshot} {position : Nat}

/-- **A play** of a client that is sealed off. -/
theorem Play.sealed (hplay : Play c moves c') (hc : c.Sealed snap position) :
    c'.Sealed snap position := by
  induction hplay with
  | done c => exact hc
  | step allowed _ ih => exact ih (hc.play allowed)

end ValueRuntime
