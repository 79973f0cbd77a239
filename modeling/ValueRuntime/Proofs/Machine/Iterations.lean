import ValueRuntime.Proofs.Machine.Hiding
import ValueRuntime.Proofs.Machine.Rebuilding
import ValueRuntime.Proofs.Machine.Snapshots
import ValueRuntime.Proofs.Machine.Subscripts

/-! # Iterations among other work

    An iteration goes on for as long as its frame does, and between two of its steps anything may
    happen. The other work does not see the iterator, so it is a play of the client that does not
    see it, and a snapshot from which that client is sealed off stays as it was taken.

    The invariant `Iterating` says where an iteration stands. What one step yields follows from it,
    and so does, along a run of steps and other work, all that the iteration yields.
-/

namespace ValueRuntime

/-! ## Elements -/

/-- **The elements of a datum:** the items of a list, the bytes of a string as strings of one byte,
    and the pairs of an object as lists of a key and a value. -/
def Datum.elements : Datum → List Datum
  | .list _ items => items
  | .string text => text.map fun byte => .string [byte]
  | .object _ keys values => List.zipWith (fun key value => .list 2 [key, value]) keys values
  | _ => []

/-- Filling hollow objects in a datum is filling them in each element. -/
theorem Datum.elements_filled (d : Datum) : d.filled.elements = d.elements.map filled := by
  cases d with
  | list capacity items => rw [filled, elements, elements, filledAll_eq_map]
  | string text => simp [filled, elements]
  | object capacity keys values =>
    simp only [filled, elements, filledAll_eq_map, List.map_zipWith, List.zipWith_map,
      List.map_cons, List.map_nil]
  | _ => rfl

namespace Snapshot

variable {snap : Snapshot} {id : NodeId}

/-- What an iteration over a snapshot yields. -/
def elements (snap : Snapshot) : List Datum := (snap.heap.view snap.root).elements

/-- The elements of a snapshot are those of the value that was copied. -/
theorem elements_of {h : Heap} {v : Value} (hs : h.Sound) (hv : h.Valid v)
    (hpaired : h.Paired v) :
    (Snapshot.of hs hv hpaired).elements = (h.view v).elements.map Datum.filled := by
  show ((h.copy v).2.view (h.copy v).1).elements = _
  rw [Heap.view_copy hs, Datum.elements_filled]

theorem elements_string {text : Bytes} (hroot : snap.root = .string text) :
    snap.elements = text.map fun byte => .string [byte] := by
  unfold elements
  rw [hroot, Heap.view_string]
  rfl

/-- The snapshot of a list. -/
theorem exists_list (hroot : snap.root = .list id) :
    ∃ l, snap.heap.nodes[id]? = some (.list l) ∧
      snap.elements = l.items.toList.map snap.heap.view := by
  have hvalid := snap.valid
  rw [hroot] at hvalid
  obtain ⟨l, hl⟩ := hvalid.list
  refine ⟨l, hl, ?_⟩
  unfold elements
  rw [hroot, snap.sound.view_list hl]
  rfl

/-- The snapshot of an object has contents. -/
theorem exists_object (hroot : snap.root = .object id) :
    ∃ o, snap.heap.nodes[id]? = some (.object o) ∧ o.keys.size = o.values.size ∧
      snap.elements = List.zipWith (fun key value => .list 2 [key, value])
        (o.keys.toList.map snap.heap.view) (o.values.toList.map snap.heap.view) := by
  have hvalid := snap.valid
  have hwhole := snap.whole
  rw [hroot] at hvalid hwhole
  obtain ⟨node, hnode, hfits⟩ := hvalid id rfl
  cases node with
  | list l => cases hfits
  | hollow =>
    rw [Heap.view_hollow hnode] at hwhole
    cases hwhole
  | object o =>
    refine ⟨o, hnode, snap.paired id o hroot (Heap.object?_eq_some_iff.mpr hnode), ?_⟩
    unfold elements
    rw [hroot, snap.sound.view_object hnode]
    rfl

/-- The key and the value of an element, which hold no hollow object. -/
theorem filled_view_stored (hroot : snap.root = .object id) {p : Place} {w : Value}
    (hw : snap.heap.at? id p = some w) : (snap.heap.view w).filled = snap.heap.view w := by
  obtain ⟨o, ho, -, -⟩ := exists_object hroot
  have hwhole := snap.whole
  unfold Datum.isWhole at hwhole
  rw [hroot, snap.sound.view_object ho, Datum.every_object_iff] at hwhole
  obtain ⟨-, hkeys, hvalues⟩ := hwhole
  have hmem := ((Node.object o).mem_stored_iff w).mpr
    ⟨p, by rw [← Heap.at?_of_node ho]; exact hw⟩
  refine Datum.filled_of_isWhole ?_
  rcases List.mem_append.mp hmem with hkey | hvalue
  · exact hkeys _ (List.mem_map_of_mem hkey)
  · exact hvalues _ (List.mem_map_of_mem hvalue)

end Snapshot

/-! ## One step -/

/-- The session with an iterator under a name. -/
def Session.withIterator (s : Session) (name : Bytes) (it : Iterator) : Session :=
  s.after (Action.modifyFrame fun f => { f with iterators := named name it f.iterators })

theorem Session.iterator?_withIterator (s : Session) (name : Bytes) (it : Iterator) :
    (s.withIterator name it).iterator? name = some it := by
  show (named name it _).lookup name = some it
  rw [lookup_named, if_pos rfl]

theorem Session.hide_withIterator (s : Session) (name : Bytes) (it : Iterator) :
    (s.withIterator name it).hide name = s.hide name := by
  have hnames := filter_named_self name it s.machine.frame.iterators
  show Session.mk (Machine.hide name { s.machine with frame := _ }) s.callers = _
  simp only [Machine.hide, Frame.hide, hnames]
  rfl

namespace Client

variable {c c' : Client} {name : Bytes} {snap : Snapshot} {position : Nat}

/-- **Where an iteration stands:** what lies ahead is sealed off from the client that does not see
    the iterator. -/
structure Iterating (name : Bytes) (c : Client) (snap : Snapshot) (position : Nat) : Prop where
  hidden : (c.hide name).Sealed snap position
  iterator : c.session.iterator? name = some ⟨snap.root, position⟩
  within : position ≤ snap.elements.length

namespace Iterating

theorem node_eq (hc : Iterating name c snap position) {id : NodeId}
    (hid : snap.root.node? = some id) : c.heap.nodes[id]? = snap.heap.nodes[id]? :=
  hc.hidden.kept id (Snapshot.ahead_root position hid)

/-- The length of an iteration is the number of elements. -/
theorem returns_length (hc : Iterating name c snap position) :
    c.session.Returns (Action.iteratorLength ⟨snap.root, position⟩) snap.elements.length
      c.session := by
  refine ⟨?_, after_iteratorLength _ _⟩
  cases hroot : snap.root with
  | string text =>
    rw [Snapshot.elements_string hroot, List.length_map]
    rfl
  | list id =>
    obtain ⟨l, hl, helements⟩ := Snapshot.exists_list hroot
    have hnode : c.heap.nodes[id]? = snap.heap.nodes[id]? := hc.node_eq (by rw [hroot]; rfl)
    have hlist : c.session.machine.heap.list? id = some l :=
      Heap.list?_eq_some_iff.mpr (hnode.trans hl)
    show Except.ok ((c.session.machine.heap.list? id).elim 0 (·.items.size)) = _
    rw [hlist, helements, List.length_map, Array.length_toList]
    rfl
  | object id =>
    obtain ⟨o, ho, hsizes, helements⟩ := Snapshot.exists_object hroot
    have hnode : c.heap.nodes[id]? = snap.heap.nodes[id]? := hc.node_eq (by rw [hroot]; rfl)
    have hobject : c.heap.object? id = some o := Heap.object?_eq_some_iff.mpr (hnode.trans ho)
    show Except.ok (c.heap.keyCount id) = _
    rw [Heap.keyCount_eq hobject, helements, List.length_zipWith]
    simp [hsizes]
  | _ =>
    unfold Snapshot.elements
    rw [hroot]
    simp only [Heap.view, Heap.viewWithin, Datum.elements]
    rfl

/-- **There is a next element** exactly while some lie ahead. -/
theorem returns_hasNext (hc : Iterating name c snap position) :
    c.session.Returns (Action.eval 1 (.hasNext name))
      (.boolean (position < snap.elements.length)) c.session :=
  Session.returns_hasNext_of_iterator hc.iterator hc.returns_length

/-- **What a step hands out** at a position: a value with the contents that the element had when
    the snapshot was taken. Whoever gets hold of it stays sealed off from what lies ahead of the
    next position. -/
def Yields (name : Bytes) (c : Client) (snap : Snapshot) (position : Nat) : Prop :=
  ∃ v s, c.session.Returns (Action.iteratorValue ⟨snap.root, position⟩) v s ∧
    snap.elements[position]? = some (s.heap.view v) ∧
    Sealed ⟨s.hide name, v :: c.handles, c.lent⟩ snap (position + 1)

/-- A byte of a string is a scalar. -/
theorem yields_byte (hc : Iterating name c snap position) {text : Bytes}
    (hroot : snap.root = .string text) (hlt : position < snap.elements.length) :
    Yields name c snap position := by
  have helements := Snapshot.elements_string hroot
  rw [helements, List.length_map] at hlt
  have hscalar : ∀ n, (Value.string ((text.drop position).take 1)).node? = some n →
      ¬snap.Ahead (position + 1) n := by
    intro n hn
    cases hn
  have hpassed := hc.hidden.later (Nat.le_succ position)
  refine ⟨_, c.session, ?_, ?_, hpassed.get (Heap.valid_string _) hscalar c.lent⟩
  · rw [hroot]
    exact ⟨rfl, rfl⟩
  · rw [Heap.view_string, helements, List.getElem?_map, List.getElem?_eq_getElem hlt,
      List.drop_eq_getElem_cons hlt]
    rfl

/-- An item of a list is handed out as it is. -/
theorem yields_item (hc : Iterating name c snap position) {id : NodeId}
    (hroot : snap.root = .list id) (hlt : position < snap.elements.length) :
    Yields name c snap position := by
  obtain ⟨l, hl, helements⟩ := Snapshot.exists_list hroot
  have hid : snap.root.node? = some id := by rw [hroot]; rfl
  have hlist : c.heap.list? id = some l :=
    Heap.list?_eq_some_iff.mpr ((hc.node_eq hid).trans hl)
  rw [helements, List.length_map, Array.length_toList] at hlt
  have hitem : l.items[position]? = some l.items[position] := Array.getElem?_eq_getElem hlt
  have hat : snap.heap.at? id (.item position) = some l.items[position] := by
    rw [Heap.at?_of_node hl]
    exact hitem
  have hview : c.heap.view l.items[position] = snap.heap.view l.items[position] :=
    hc.hidden.view_eq hid hat (Nat.le_refl position)
  refine ⟨l.items[position], c.session, ?_, ?_, hc.hidden.item hid hat⟩
  · rw [hroot]
    refine ⟨?_, rfl⟩
    show Except.ok (c.heap.item id position) = _
    rw [Heap.item_of_list hlist, hitem]
    rfl
  · show _ = some (c.heap.view l.items[position])
    rw [hview, helements, List.getElem?_map, Array.getElem?_toList, hitem]
    rfl

/-- A pair of an object is a new list. -/
theorem yields_pair (hc : Iterating name c snap position) {id : NodeId}
    (hroot : snap.root = .object id) (hlt : position < snap.elements.length) :
    Yields name c snap position := by
  obtain ⟨o, ho, hsizes, helements⟩ := Snapshot.exists_object hroot
  have hid : snap.root.node? = some id := by rw [hroot]; rfl
  have hobject : c.session.heap.object? id = some o :=
    Heap.object?_eq_some_iff.mpr ((hc.node_eq hid).trans ho)
  simp only [helements, List.length_zipWith, List.length_map, Array.length_toList] at hlt
  have hk : o.keys[position]? = some o.keys[position] := Array.getElem?_eq_getElem (by omega)
  have hw : o.values[position]? = some o.values[position] := Array.getElem?_eq_getElem (by omega)
  generalize o.keys[position] = k at hk
  generalize o.values[position] = w at hw
  have hkat : snap.heap.at? id (.key position) = some k := by
    rw [Heap.at?_of_node ho]
    exact hk
  have hwat : snap.heap.at? id (.value position) = some w := by
    rw [Heap.at?_of_node ho]
    exact hw
  have hkview : c.heap.view k = snap.heap.view k := hc.hidden.view_eq hid hkat trivial
  have hwview : c.heap.view w = snap.heap.view w := hc.hidden.view_eq hid hwat trivial
  have hvalid : ∀ p u, snap.heap.at? id p = some u → c.heap.Valid u := by
    intro p u hu
    refine hc.hidden.sound.session.heap.stored id p u ?_
    exact (hc.hidden.at?_eq (Snapshot.ahead_root position hid) p).trans hu
  -- Making the list is an operation like any other, which changes no container.
  have hmove : (Move.operate (.build (.list [k, w]))).Allowed (c.hide name) := by
    refine Operation.allowed_of_valid ?_ rfl
    intro u hu
    simp only [Operation.handles, Contents.handles, List.mem_cons, List.not_mem_nil,
      or_false] at hu
    rcases hu with rfl | rfl
    · exact hvalid _ _ hkat
    · exact hvalid _ _ hwat
  have hpair := Heap.isPair_newList hc.hidden.sound.session.heap k w
  refine ⟨(c.heap.newList [k, w]).1, c.session.withHeap (c.heap.newList [k, w]).2, ?_, ?_,
    (hc.hidden.play hmove).later (Nat.le_succ position)⟩
  · rw [hroot]
    exact Session.returns_pair hobject hk hw
  · have hview : (c.heap.newList [k, w]).2.view (c.heap.newList [k, w]).1
        = .list 2 [(c.heap.view k).filled, (c.heap.view w).filled] := hpair.view_eq
    show _ = some ((c.heap.newList [k, w]).2.view (c.heap.newList [k, w]).1)
    rw [hview, hkview, hwview, Snapshot.filled_view_stored hroot hkat,
      Snapshot.filled_view_stored hroot hwat, helements]
    simp [List.getElem?_zipWith, hk, hw]

/-- **The element at the position** is handed out. -/
theorem yields (hc : Iterating name c snap position) (hlt : position < snap.elements.length) :
    Yields name c snap position := by
  cases hroot : snap.root with
  | string text => exact hc.yields_byte hroot hlt
  | list id => exact hc.yields_item hroot hlt
  | object id => exact hc.yields_pair hroot hlt
  | _ =>
    unfold Snapshot.elements at hlt
    rw [hroot] at hlt
    simp [Heap.view, Heap.viewWithin, Datum.elements] at hlt

/-- **One step of an iteration.** It always returns: the element at the position, and nil when
    none is left. -/
theorem exists_next (hc : Iterating name c snap position) :
    ∃ v s, c.session.Returns (Action.eval 1 (.next name)) v s ∧
      s.heap.view v = snap.elements.getD position .nil ∧
      Iterating name ⟨s, v :: c.handles, c.lent⟩ snap
        (min (position + 1) snap.elements.length) := by
  by_cases hlt : position < snap.elements.length
  · obtain ⟨v, s, hvalue, helement, hsealed⟩ := hc.yields hlt
    refine ⟨v, s.withIterator name ⟨snap.root, position + 1⟩, ?_, ?_, ?_⟩
    · exact Session.returns_next_of_lt hc.iterator hc.returns_length hlt hvalue
    · rw [List.getD_eq_getElem?_getD, helement]
      rfl
    · rw [Nat.min_eq_left hlt]
      refine ⟨?_, s.iterator?_withIterator name _, hlt⟩
      unfold Client.hide
      rw [Session.hide_withIterator]
      exact hsealed
  · -- The position stays where it is.
    have hend : position = snap.elements.length := Nat.le_antisymm hc.within (Nat.le_of_not_lt hlt)
    refine ⟨.nil, c.session, ?_, ?_, ?_⟩
    · exact Session.returns_next_of_not_lt hc.iterator hc.returns_length hlt
    · rw [Heap.view_nil, List.getD_eq_default _ _ (Nat.le_of_not_lt hlt)]
    · rw [Nat.min_eq_right (by omega), ← hend]
      refine ⟨hc.hidden.get Heap.valid_nil ?_ c.lent, hc.iterator, hc.within⟩
      intro n hn
      cases hn

theorem next (hc : Iterating name c snap position) {v : Value} {s : Session}
    (hnext : c.session.Returns (Action.eval 1 (.next name)) v s) :
    s.heap.view v = snap.elements.getD position .nil ∧
      Iterating name ⟨s, v :: c.handles, c.lent⟩ snap
        (min (position + 1) snap.elements.length) := by
  obtain ⟨v', s', ⟨hresult, hafter⟩, hstep⟩ := hc.exists_next
  rw [hnext.1] at hresult
  rw [hnext.2] at hafter
  cases hresult
  rw [hafter]
  exact hstep

/-- **Other work** leaves an iteration where it stands. -/
theorem work (hc : Iterating name c snap position) {moves : List Move}
    (hplay : Play (c.hide name) moves (c'.hide name))
    (huntouched : c'.session.iterator? name = c.session.iterator? name) :
    Iterating name c' snap position :=
  ⟨hplay.sealed hc.hidden, huntouched.trans hc.iterator, hc.within⟩

end Iterating

end Client

/-! ## Runs -/

/-- Past the end it does not matter how far past. -/
theorem getD_min_length_add {α : Type} (xs : List α) (m n : Nat) (a : α) :
    xs.getD (min m xs.length + n) a = xs.getD (m + n) a := by
  by_cases hm : m ≤ xs.length
  · rw [Nat.min_eq_left hm]
  · rw [List.getD_eq_default _ _ (by omega), List.getD_eq_default _ _ (by omega)]

/-- **Steps of an iteration with other work between them,** and what the steps yield. The other
    work is a play of the client that does not see the iterator, and leaves the iterator alone. -/
inductive Interleaved (name : Bytes) : Client → List Datum → Client → Prop where
  | done (c : Client) : Interleaved name c [] c
  | work {c c₁ c' : Client} {moves : List Move} {yields : List Datum}
      (play : Play (c.hide name) moves (c₁.hide name))
      (untouched : c₁.session.iterator? name = c.session.iterator? name)
      (rest : Interleaved name c₁ yields c') : Interleaved name c yields c'
  | next {c c' : Client} {v : Value} {s : Session} {yields : List Datum}
      (returns : c.session.Returns (Action.eval 1 (.next name)) v s)
      (rest : Interleaved name ⟨s, v :: c.handles, c.lent⟩ yields c') :
      Interleaved name c (s.heap.view v :: yields) c'

namespace Interleaved

variable {c c' c'' : Client} {name : Bytes} {snap : Snapshot} {position : Nat}
  {yields more : List Datum}

theorem append (h₁ : Interleaved name c yields c') (h₂ : Interleaved name c' more c'') :
    Interleaved name c (yields ++ more) c'' := by
  induction h₁ with
  | done c => exact h₂
  | work play untouched _ ih => exact .work play untouched (ih h₂)
  | next returns _ ih => exact .next returns (ih h₂)

/-- **Where an iteration stands after a run:** as many elements further as there were steps. The
    client still has all that it had. -/
theorem iterating (hrun : Interleaved name c yields c') (hc : c.Iterating name snap position) :
    c'.Iterating name snap (min (position + yields.length) snap.elements.length) ∧
      c.handles ⊆ c'.handles := by
  induction hrun generalizing position with
  | done c =>
    have hwithin := hc.within
    rw [List.length_nil, Nat.add_zero, Nat.min_eq_left hwithin]
    exact ⟨hc, List.Subset.refl _⟩
  | @work c c₁ c' moves yields play untouched _ ih =>
    have hhandles : c.handles ⊆ c₁.handles := (play.later hc.hidden.sound).handles
    obtain ⟨hrest, hmore⟩ := ih (hc.work play untouched)
    exact ⟨hrest, List.Subset.trans hhandles hmore⟩
  | @next c c' v s yields returns _ ih =>
    have hwithin := hc.within
    obtain ⟨hrest, hmore⟩ := ih (hc.next returns).2
    have hposition : min (min (position + 1) snap.elements.length + yields.length)
        snap.elements.length = min (position + (yields.length + 1)) snap.elements.length := by
      omega
    rw [hposition] at hrest
    exact ⟨hrest, List.Subset.trans (List.subset_cons_self _ _) hmore⟩

/-- **What an iteration yields along a run:** the elements from its position on, one for each step,
    and nil for each step after the last of them. -/
theorem yields_eq (hrun : Interleaved name c yields c') (hc : c.Iterating name snap position) :
    yields = (List.range yields.length).map fun n => snap.elements.getD (position + n) .nil := by
  induction hrun generalizing position with
  | done c => rfl
  | work play untouched _ ih => exact ih (hc.work play untouched)
  | @next c c' v s yields returns _ ih =>
    obtain ⟨hfirst, hnext⟩ := hc.next returns
    have hrest : yields = (List.range yields.length).map
        fun n => snap.elements.getD (position + (n + 1)) .nil := by
      have hshifted := ih hnext
      simp only [getD_min_length_add, Nat.succ_add_eq_add_succ] at hshifted
      exact hshifted
    rw [List.length_cons, List.range_succ_eq_map, List.map_cons, List.map_map, hfirst]
    exact congrArg (_ :: ·) hrest

end Interleaved

end ValueRuntime
