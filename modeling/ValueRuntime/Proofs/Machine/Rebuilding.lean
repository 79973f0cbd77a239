import ValueRuntime.Proofs.Heap.Building
import ValueRuntime.Proofs.Machine.Run

/-! # Objects from sequences, and from the pairs of an iteration

    An iteration over an object reads a copy that was taken when it began, and gives each key
    with its value as a new list of two items. From these pairs the object can be built again:
    when no two of its keys are equal, every key has a place of its own, so nothing is lost.
-/

namespace ValueRuntime

namespace Session

variable {s s' s'' : Session} {name : Bytes} {α β : Type}

/-! ## What an iteration yields -/

/-- **What an iteration yields** from here on until there is no more, and the session that is
    left then. -/
inductive Yields (name : Bytes) : Session → List Value → Session → Prop where
  | ended {s : Session}
      (hended : s.Returns (Action.eval 1 (.hasNext name)) (.boolean false) s) : Yields name s [] s
  | more {s s' s'' : Session} {v : Value} {rest : List Value}
      (hmore : s.Returns (Action.eval 1 (.hasNext name)) (.boolean true) s)
      (hnext : s.Returns (Action.eval 1 (.next name)) v s') (hrest : Yields name s' rest s'') :
      Yields name s (v :: rest) s''

theorem Returns.get {f : Machine → Action α} {a : α} (hf : s.Returns (f s.machine) a s') :
    s.Returns (MonadState.get >>= f) a s' := by
  obtain ⟨hresult, hafter⟩ := bind_get (s := s) f
  exact ⟨hresult.trans hf.1, hafter.trans hf.2⟩

section Iterators

variable {it : Iterator} {length : Nat} {v : Value}
  (hit : s.machine.frame.iterators.lookup name = some it)
  (hlength : s.Returns (Action.iteratorLength it) length s)
include hit hlength

/-- There is more while the position of an iterator is below its length. -/
theorem returns_hasNext_of_iterator :
    s.Returns (Action.eval 1 (.hasNext name)) (.boolean (it.position < length)) s := by
  show s.Returns (Action.hasNext name) _ _
  unfold Action.hasNext
  apply Returns.get
  rw [hit]
  exact hlength.bind ⟨rfl, rfl⟩

/-- The value at the position is next, and the position moves on. -/
theorem returns_next_of_lt (hlt : it.position < length)
    (hvalue : s.Returns (Action.iteratorValue it) v s') :
    s.Returns (Action.eval 1 (.next name)) v (s'.after (Action.modifyFrame fun f =>
      { f with iterators := named name { it with position := it.position + 1 } f.iterators })) := by
  show s.Returns (Action.next name) _ _
  unfold Action.next
  apply Returns.get
  rw [hit]
  refine hlength.bind ?_
  rw [if_pos hlt]
  exact hvalue.bind ⟨rfl, rfl⟩

/-- At the end nil is next, and nothing moves. -/
theorem returns_next_of_not_lt (hend : ¬it.position < length) :
    s.Returns (Action.eval 1 (.next name)) .nil s := by
  show s.Returns (Action.next name) _ _
  unfold Action.next
  apply Returns.get
  rw [hit]
  refine hlength.bind ?_
  rw [if_neg hend]
  exact ⟨rfl, rfl⟩

end Iterators

/-- An iteration over an object is at some position. -/
def IteratesAt (s : Session) (name : Bytes) (id : NodeId) (position : Nat) : Prop :=
  s.machine.frame.iterators.lookup name = some ⟨.object id, position⟩

theorem returns_iteratorLength (s : Session) (id : NodeId) (position : Nat) :
    s.Returns (Action.iteratorLength ⟨.object id, position⟩) (s.heap.keyCount id) s :=
  ⟨rfl, rfl⟩

/-- There is more while the position is one of a key. -/
theorem returns_hasNext {id : NodeId} {position : Nat} (hit : s.IteratesAt name id position) :
    s.Returns (Action.eval 1 (.hasNext name)) (.boolean (position < s.heap.keyCount id)) s :=
  returns_hasNext_of_iterator hit (returns_iteratorLength s id position)

/-- The session in which an iteration has gone one position further. -/
def stepped (s : Session) (name : Bytes) (id : NodeId) (position : Nat) (h : Heap) : Session :=
  (s.withHeap h).after (Action.modifyFrame fun f =>
    { f with iterators := named name ⟨.object id, position + 1⟩ f.iterators })

theorem iteratesAt_stepped (s : Session) (name : Bytes) (id : NodeId) (position : Nat) (h : Heap) :
    (s.stepped name id position h).IteratesAt name id (position + 1) := by
  show (named name _ _).lookup name = _
  rw [lookup_named, if_pos rfl]

/-- **The pair at a position** is a new list with copies of a key and its value. -/
theorem returns_pair {id : NodeId} {position : Nat} {o : ObjectNode} {k w : Value}
    (ho : s.heap.object? id = some o) (hk : o.keys[position]? = some k)
    (hw : o.values[position]? = some w) :
    s.Returns (Action.iteratorValue ⟨.object id, position⟩) (s.heap.newList [k, w]).1
      (s.withHeap (s.heap.newList [k, w]).2) := by
  show s.Returns (MonadState.get >>= _) _ _
  apply Returns.get
  have hat : Heap.valueAt o position = .ok w := by
    rw [Heap.valueAt, hw]
  have ho' : s.machine.heap.object? id = some o := ho
  simp only [ho']
  show s.Returns (Action.ofFault (Heap.valueAt o position) >>= _) _ _
  rw [hat, hk]
  exact ⟨rfl, rfl⟩

/-- **The next pair.** -/
theorem returns_next {id : NodeId} {position : Nat} {o : ObjectNode} {k w : Value}
    (hit : s.IteratesAt name id position) (ho : s.heap.object? id = some o)
    (hk : o.keys[position]? = some k) (hw : o.values[position]? = some w) :
    s.Returns (Action.eval 1 (.next name)) (s.heap.newList [k, w]).1
      (s.stepped name id position (s.heap.newList [k, w]).2) := by
  have hlt : position < s.heap.keyCount id := by
    rw [Heap.keyCount_eq ho]
    exact (Array.getElem?_eq_some_iff.mp hk).1
  exact returns_next_of_lt hit (returns_iteratorLength s id position) hlt (returns_pair ho hk hw)

end Session

namespace Heap

variable {h h' : Heap} {pair : Value}

/-! ## Pairs -/

/-- The item at a position of a value, nil unless the value is a list. -/
def itemOf (h : Heap) (v : Value) (index : Nat) : Value :=
  match v with
  | .list id => h.item id index
  | _ => .nil

/-- **A pair:** a list of two items with given contents. -/
structure IsPair (h : Heap) (pair : Value) (contents : Datum × Datum) : Prop where
  valid : h.Valid pair
  view_eq : h.view pair = .list 2 [contents.1, contents.2]

theorem isPair_newList (hs : h.Sound) (k w : Value) :
    (h.newList [k, w]).2.IsPair (h.newList [k, w]).1
      ((h.view k).filled, (h.view w).filled) where
  valid := (Change.alloc hs _).root_valid
  view_eq := view_alloc_filled hs _

theorem IsPair.older {contents : Datum × Datum} (hpair : h.IsPair pair contents) (hs : h.Sound)
    (hold : h.Older h') : h'.IsPair pair contents where
  valid := by
    have hlater : h.Extends h' := extends_of_prefix hold
    exact hlater.valid hpair.valid
  view_eq := by
    rw [view_older hs hold hpair.valid]
    exact hpair.view_eq

/-- The items of a pair. -/
theorem IsPair.item {contents : Datum × Datum} (hpair : h.IsPair pair contents) (hs : h.Sound)
    (index : Nat) :
    h.Valid (h.itemOf pair index) ∧
      h.view (h.itemOf pair index) = [contents.1, contents.2].getD index .nil := by
  have hview := hpair.view_eq
  cases pair with
  | list id =>
    obtain ⟨l, hl⟩ := hpair.valid.list
    rw [hs.view_list hl] at hview
    obtain ⟨-, hitems⟩ := Datum.list.inj hview
    have hitem : h.itemOf (.list id) index = (l.items[index]?).getD .nil := by
      simp only [itemOf, Heap.item, list?_eq_some_iff.mpr hl, Option.bind_some]
    rw [hitem, ← hitems, List.getD_eq_getElem?_getD, List.getElem?_map, Array.getElem?_toList]
    cases hat : l.items[index]? with
    | none => exact ⟨valid_nil, view_nil h⟩
    | some v =>
      refine ⟨hs.stored id (.item index) v ?_, rfl⟩
      rw [at?_of_node hl]
      exact hat
  | object id =>
    -- An object does not read as a list, whether it has contents or not.
    obtain ⟨node, hnode, hfits⟩ := hpair.valid id rfl
    cases node with
    | list l => cases hfits
    | object o =>
      rw [hs.view_object hnode] at hview
      cases hview
    | hollow =>
      cases hsize : h.nodes.size with
      | zero => simp [view, hsize, viewWithin] at hview
      | succ size => simp [view, hsize, viewWithin, hnode] at hview
  | _ => simp [view, viewWithin] at hview

/-- What keys and values hold, pair by pair. -/
def pairsOf (h : Heap) (o : ObjectNode) : List (Datum × Datum) :=
  (o.keys.toList.zip o.values.toList).map fun pair =>
    ((h.view pair.1).filled, (h.view pair.2).filled)

theorem map_fst_pairsOf {o : ObjectNode} (hsizes : o.keys.size = o.values.size) :
    (h.pairsOf o).map (·.1) = (o.keys.toList.map h.view).map Datum.filled := by
  have hkeys : (o.keys.toList.zip o.values.toList).map Prod.fst = o.keys.toList :=
    List.map_fst_zip (by simp [hsizes])
  calc (h.pairsOf o).map (·.1)
      = (((o.keys.toList.zip o.values.toList).map Prod.fst).map h.view).map Datum.filled := by
        simp only [pairsOf, List.map_map, Function.comp_def]
    _ = (o.keys.toList.map h.view).map Datum.filled := by rw [hkeys]

theorem map_snd_pairsOf {o : ObjectNode} (hsizes : o.keys.size = o.values.size) :
    (h.pairsOf o).map (·.2) = (o.values.toList.map h.view).map Datum.filled := by
  have hvalues : (o.keys.toList.zip o.values.toList).map Prod.snd = o.values.toList :=
    List.map_snd_zip (by simp [hsizes])
  calc (h.pairsOf o).map (·.2)
      = (((o.keys.toList.zip o.values.toList).map Prod.snd).map h.view).map Datum.filled := by
        simp only [pairsOf, List.map_map, Function.comp_def]
    _ = (o.values.toList.map h.view).map Datum.filled := by rw [hvalues]

/-- The first and the second items of pairs. -/
theorem map_items_of_pairs (hs : h.Sound) {pairs : List Value} {contents : List (Datum × Datum)}
    (hpairs : List.Forall₂ h.IsPair pairs contents) :
    (∀ index, ∀ v ∈ pairs.map (h.itemOf · index), h.Valid v) ∧
      (pairs.map (h.itemOf · 0)).map h.view = contents.map (·.1) ∧
      (pairs.map (h.itemOf · 1)).map h.view = contents.map (·.2) := by
  induction hpairs with
  | nil => simp
  | @cons pair content pairs contents hpair _ ih =>
    obtain ⟨hvalid, hfirst, hsecond⟩ := ih
    refine ⟨?_, ?_, ?_⟩
    · intro index v hv
      rcases List.mem_cons.mp hv with rfl | hv
      · exact (hpair.item hs index).1
      · exact hvalid index v hv
    · simp only [List.map_cons, hfirst, (hpair.item hs 0).2, List.getD_cons_zero]
    · simp only [List.map_cons, hsecond, (hpair.item hs 1).2, List.getD_cons_succ,
        List.getD_cons_zero]

/-- The copy of an object is an object, with what the keys and values held. -/
theorem exists_copied_object (hs : h.Sound) {id : NodeId} {o : ObjectNode}
    (ho : h.object? id = some o) :
    ∃ id' o', (h.copy (.object id)).1 = .object id' ∧
      (h.copy (.object id)).2.object? id' = some o' ∧
      o'.keys.toList.map (h.copy (.object id)).2.view
        = (o.keys.toList.map h.view).map Datum.filled ∧
      o'.values.toList.map (h.copy (.object id)).2.view
        = (o.values.toList.map h.view).map Datum.filled := by
  have hview := hs.view_object (object?_eq_some_iff.mp ho)
  have hcopy := view_copy hs (.object id)
  have hsound := (Change.copy hs (.object id)).sound
  simp only [copy, hview] at hcopy hsound ⊢
  generalize o.keys.toList.map h.view = keys at hcopy hsound ⊢
  generalize o.values.toList.map h.view = values at hcopy hsound ⊢
  have hnode : ∃ o', (h.alloc (.object o.capacity keys values)).2.nodes[h.nodes.size]?
      = some (.object o') := by
    rw [← Nat.add_zero h.nodes.size, getElem?_alloc_new]
    exact ⟨_, rfl⟩
  obtain ⟨o', ho'⟩ := hnode
  have hread : (h.alloc (.object o.capacity keys values)).2.view (.object h.nodes.size)
      = (Datum.object o.capacity keys values).filled := hcopy
  rw [hsound.view_object ho', Datum.filled, Datum.filledAll_eq_map, Datum.filledAll_eq_map] at hread
  obtain ⟨-, hkeys, hvalues⟩ := Datum.object.inj hread
  exact ⟨h.nodes.size, o', rfl, object?_eq_some_iff.mpr ho', hkeys, hvalues⟩

theorem Older.object {old : Heap} {id : NodeId} {o : ObjectNode} (holder : old.Older h)
    (ho : old.object? id = some o) : h.object? id = some o := by
  rw [object?_eq_some_iff] at ho ⊢
  rw [holder id (lt_size_of_getElem? ho)]
  exact ho

end Heap

namespace Session

variable {s s' s'' : Session} {name : Bytes} {old : Heap} {id : NodeId} {o : ObjectNode}

/-- **An iteration over an object** yields the pairs from its position on. The object may have
    been there long before, and has stayed. The induction is on the number of pairs left. -/
theorem yields_pairs (hold : old.Sound) (ho : old.object? id = some o)
    (hsizes : o.keys.size = o.values.size) {remaining position : Nat} (hs : s.heap.Sound)
    (holder : old.Older s.heap) (hit : s.IteratesAt name id position)
    (hremaining : o.keys.size = position + remaining) :
    ∃ pairs s', Yields name s pairs s' ∧ s.heap.Older s'.heap ∧ s'.heap.Sound ∧
      List.Forall₂ s'.heap.IsPair pairs ((old.pairsOf o).drop position) := by
  have hlength : (old.pairsOf o).length = o.keys.size := by
    simp [Heap.pairsOf, hsizes]
  induction remaining generalizing s position with
  | zero =>
    have hhas := returns_hasNext hit
    rw [Heap.keyCount_eq (holder.object ho), hremaining] at hhas
    refine ⟨[], s, .ended ?_, Heap.Older.refl _, hs, ?_⟩
    · simpa using hhas
    · rw [List.drop_eq_nil_of_le (by omega)]
      exact .nil
  | succ remaining ih =>
    have hhas := returns_hasNext hit
    rw [Heap.keyCount_eq (holder.object ho), hremaining] at hhas
    have hkeys : position < o.keys.size := by omega
    have hvalues : position < o.values.size := by omega
    let k := o.keys[position]
    let w := o.values[position]
    let next := s.stepped name id position (s.heap.newList [k, w]).2
    have hnext : s.Returns (Action.eval 1 (.next name)) (s.heap.newList [k, w]).1 next :=
      returns_next hit (holder.object ho) (Array.getElem?_eq_getElem hkeys)
        (Array.getElem?_eq_getElem hvalues)
    have hgrown : s.heap.Older next.heap := Heap.older_alloc _ _
    have hsound : next.heap.Sound := (Heap.Change.alloc hs _).sound
    obtain ⟨pairs, s', hyields, hlater, hs', hpairs⟩ :=
      ih hsound (holder.trans hgrown) (iteratesAt_stepped s name id position _) (by omega)
    refine ⟨_, s', .more ?_ hnext hyields, hgrown.trans hlater, hs', ?_⟩
    · simpa using hhas
    · -- The pair holds what key and value held when the iteration began.
      have hk : s.heap.view k = old.view k := by
        apply Heap.view_older hold holder
        apply hold.stored id (.key position)
        rw [Heap.at?_of_node (Heap.object?_eq_some_iff.mp ho)]
        exact Array.getElem?_eq_getElem hkeys
      have hw : s.heap.view w = old.view w := by
        apply Heap.view_older hold holder
        apply hold.stored id (.value position)
        rw [Heap.at?_of_node (Heap.object?_eq_some_iff.mp ho)]
        exact Array.getElem?_eq_getElem hvalues
      have hpair := (Heap.isPair_newList hs k w).older hsound hlater
      have hfirst : (old.pairsOf o).drop position
          = ((s.heap.view k).filled, (s.heap.view w).filled)
            :: (old.pairsOf o).drop (position + 1) := by
        rw [List.drop_eq_getElem_cons (by omega), hk, hw]
        simp [Heap.pairsOf, k, w]
      rw [hfirst]
      exact .cons hpair hpairs

/-- **The object built from what an iteration over an object yields** has the tree of that
    object, if no two of its keys are equal. -/
theorem rebuilt_from_pairs (hs : s.heap.Sound) (ho : s.heap.object? id = some o)
    (hsizes : o.keys.size = o.values.size)
    (hdistinct : o.keys.toList.Pairwise fun a b =>
      (s.heap.view a).equal (s.heap.view b) = false) :
    ∃ pairs s' w h', Yields name (s.perform (.iterate name (.object id))) pairs s' ∧
      s'.heap.objectOf (pairs.map (s'.heap.itemOf · 0)) (pairs.map (s'.heap.itemOf · 1))
        = .ok (w, h') ∧
      (h'.view w).tree = (s.heap.view (.object id)).filled.tree := by
  obtain ⟨source, o', hsource, ho', hkeys, hvalues⟩ := Heap.exists_copied_object hs ho
  have hc := Heap.Change.copy hs (.object id)
  have hsizes' : o'.keys.size = o'.values.size := by
    have hkeyCount := congrArg List.length hkeys
    have hvalueCount := congrArg List.length hvalues
    simp only [List.length_map, Array.length_toList] at hkeyCount hvalueCount
    omega
  have hit : (s.perform (.iterate name (.object id))).IteratesAt name source 0 := by
    show (named name _ _).lookup name = _
    rw [lookup_named, if_pos rfl, ← hsource]
    rfl
  have hsound : (s.perform (.iterate name (.object id))).heap.Sound := hc.sound
  obtain ⟨pairs, s', hyields, -, hs', hpairs⟩ := yields_pairs hc.sound ho' hsizes' hsound
    (Heap.Older.refl _) hit (Nat.zero_add _).symm
  obtain ⟨hvalid, hfirst, hsecond⟩ := Heap.map_items_of_pairs hs' hpairs
  obtain ⟨h', hobject, -, -, -, hview⟩ :=
    Heap.exists_objectOf hs' (hvalid 0) (hvalid 1)
  refine ⟨pairs, s', _, h', hyields, hobject, ?_⟩
  -- Everything is filled once the copy is taken, so the entries are those of the original.
  rw [List.drop_zero, Heap.map_fst_pairsOf hsizes', hkeys, Datum.map_filled_filled] at hfirst
  rw [List.drop_zero, Heap.map_snd_pairsOf hsizes', hvalues, Datum.map_filled_filled] at hsecond
  have hdistinct' : ((o.keys.toList.map s.heap.view).map Datum.filled).Pairwise
      fun a b => a.equal b = false := by
    rw [List.pairwise_map, List.pairwise_map]
    refine hdistinct.imp ?_
    intro a b hab
    rw [Datum.equal_filled, Datum.equal_comm, Datum.equal_filled, Datum.equal_comm]
    exact hab
  rw [hfirst, hsecond, Datum.map_filled_filled, Datum.map_filled_filled,
    Codec.Entries.ofPlaces_of_distinct (by simp [hsizes]) hdistinct'] at hview
  rw [hview, hs.view_object (Heap.object?_eq_some_iff.mp ho), Datum.filled,
    Datum.filledAll_eq_map, Datum.filledAll_eq_map]
  rfl

end Session

/-! ## Objects from sequences -/

open Datum in
/-- **Objects from sequences.** For all sequences of keys and values:

    * The object has, in order, the keys at the first places, each as it stands there, and for
      each of them a copy of the value at its last place, nil if the values end before that
      place. All of it is new.
    * A key that does not equal itself has an entry of its own.
    * Values beyond the keys are ignored.
    * An object in which no two keys are equal is built again, with the same tree, from the
      pairs that an iteration over it yields. -/
theorem object_from_keys_and_values :
    (∀ (h : Heap) (keys values : List Value), h.Sound → (∀ v ∈ keys ++ values, h.Valid v) →
      ∃ id h', h.objectOf keys values = .ok (.object id, h') ∧ h.Older h' ∧
        (∀ n, h'.Reaches (.object id) n → h.nodes.size ≤ n) ∧
        h'.view (.object id)
          = .object (capacityAfter defaultCapacity 0 (firstPlaces (keys.map h.view)).length)
              ((firstPlaces (keys.map h.view)).map fun i =>
                ((keys.map h.view).getD i .nil).filled)
              ((firstPlaces (keys.map h.view)).map fun i =>
                ((values.map h.view).getD (lastPlace (keys.map h.view) i) .nil).filled)) ∧
      (∀ (keys : List Datum) (i : Nat), i < keys.length →
        (keys.getD i .nil).equal (keys.getD i .nil) = false →
        i ∈ firstPlaces keys ∧ lastPlace keys i = i) ∧
      (∀ (h : Heap) (keys values extra : List Value), keys.length ≤ values.length →
        h.objectOf keys (values ++ extra) = h.objectOf keys values) ∧
      ∀ (s : Session) (id : NodeId) (o : ObjectNode) (name : Bytes), s.heap.Sound →
        s.heap.object? id = some o → o.keys.size = o.values.size →
        (o.keys.toList.Pairwise fun a b => (s.heap.view a).equal (s.heap.view b) = false) →
        ∃ pairs s' w h',
          Session.Yields name (s.perform (.iterate name (.object id))) pairs s' ∧
          s'.heap.objectOf (pairs.map (s'.heap.itemOf · 0)) (pairs.map (s'.heap.itemOf · 1))
            = .ok (w, h') ∧
          (h'.view w).tree = (s.heap.view (.object id)).filled.tree := by
  refine ⟨?_, ?_, ?_, ?_⟩
  · intro h keys values hs hvalid
    obtain ⟨h', hobject, hold, hs', -, hview⟩ := Heap.exists_objectOf hs
      (fun v hv => hvalid v (List.mem_append_left _ hv))
      (fun v hv => hvalid v (List.mem_append_right _ hv))
    refine ⟨_, h', hobject, hold, ?_, ?_⟩
    · rintro n ⟨root, hroot, hpath⟩
      cases hroot
      exact hs'.le_of_path hpath
    · rw [hview, Codec.Entries.ofPlaces_filled]
      simp only [Codec.Entries.toDatum, Codec.Entries.ofPlaces, List.map_map, List.length_map,
        Function.comp_def]
  · intro keys i hi hself
    exact places_of_not_equal_self hi hself
  · intro h keys values extra hle
    unfold Heap.objectOf
    rw [Heap.pairUp_append hle]
  · intro s id o name hs ho hsizes hdistinct
    exact Session.rebuilt_from_pairs hs ho hsizes hdistinct

/-- Of the keys `0`, "not a number" and `-0` with two values, the last has none and resets the
    first to nil. An object with the keys that are left is rebuilt from its pairs. -/
theorem late_duplicate_resets_to_nil :
    (∃ id h', Heap.empty.objectOf [.number (.zero false), .number .nan, .number (.zero true)]
        [.boolean true, .boolean false] = .ok (.object id, h') ∧
      h'.view (.object id)
        = .object 8 [.number (.zero false), .number .nan] [.nil, .boolean false]) ∧
      ∃ (s : Session) (o : ObjectNode), s.heap.object? 0 = some o ∧
        o.keys = #[.number (.zero false), .number .nan] ∧
        ∃ pairs s' w h',
          Session.Yields (utf8 "it") (s.perform (.iterate (utf8 "it") (.object 0))) pairs s' ∧
          s'.heap.objectOf (pairs.map (s'.heap.itemOf · 0)) (pairs.map (s'.heap.itemOf · 1))
            = .ok (w, h') ∧
          (h'.view w).tree = .object 0 [.number (.zero false), .number .nan] [.nil, .boolean false] := by
  obtain ⟨hbuilt, -, -, hrebuilt⟩ := object_from_keys_and_values
  constructor
  · obtain ⟨id, h', hobject, -, -, hview⟩ := hbuilt Heap.empty
      [.number (.zero false), .number .nan, .number (.zero true)] [.boolean true, .boolean false]
      Heap.sound_empty (by simp)
    exact ⟨id, h', hobject, hview⟩
  · let d : Datum := .object 8 [.number (.zero false), .number .nan] [.nil, .boolean false]
    let s : Session := (Session.new [] [] true).withHeap (Heap.empty.alloc d).2
    have hc := Heap.Change.alloc Heap.sound_empty d
    obtain ⟨pairs, s', w, h', hyields, hobject, htree⟩ := hrebuilt s 0
      ⟨#[.number (.zero false), .number .nan], 8, #[.nil, .boolean false]⟩ (utf8 "it") hc.sound rfl
      rfl (by decide)
    exact ⟨s, _, rfl, rfl, pairs, s', w, h', hyields, hobject, htree⟩

end ValueRuntime
