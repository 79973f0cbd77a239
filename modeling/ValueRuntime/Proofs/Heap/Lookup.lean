import ValueRuntime.Proofs.Heap.Apart
import ValueRuntime.Proofs.Heap.Copying

/-! # Looking up what was stored

    An object finds a key at the first place with an equal key. Equality is symmetric and
    transitive, so equal keys are found at the same place, and a place is found by equal keys
    only. It is not reflexive: a key that does not equal itself is found nowhere.

    Storing changes the object, and the keys that are looked up may contain that object. Yet no
    key is found elsewhere because of it, since equality does not look into objects. With this
    the laws of a map follow from what a single store does, which is `storedAs_of_store`.
-/

namespace ValueRuntime

namespace Heap

variable {h h' h'' : Heap} {v w key : Value} {id : NodeId} {o o' : ObjectNode}

/-! ## Equality does not look into objects -/

/-- A later heap in which what a value reaches has stayed, but for what objects hold. -/
def SameButObjects (h h' : Heap) (v : Value) : Prop :=
  ∀ n, h.Reaches v n → h'.nodes[n]? = h.nodes[n]? ∨
    ∃ o o', h.nodes[n]? = some (.object o) ∧ h'.nodes[n]? = some (.object o')

theorem equalAll_map_congr {f g : Value → Datum} {vs : List Value}
    (hsame : ∀ v ∈ vs, ∀ e, (f v).equal e = (g v).equal e) (es : List Datum) :
    Datum.equalAll (vs.map f) es = Datum.equalAll (vs.map g) es := by
  induction vs generalizing es with
  | nil => rfl
  | cons v rest ih =>
    cases es with
    | nil => rfl
    | cons e more =>
      have hrest := ih (fun v hv => hsame v (List.mem_cons_of_mem _ hv)) more
      simp only [List.map_cons, Datum.equalAll, hsame v List.mem_cons_self, hrest]

/-- The contents of a value equal the same data as long as the lists in it stay. The induction
    is on the depth in the first heap, as for contents that stay altogether. -/
theorem equal_viewWithin (hs : h.Sound) (hv : h.Valid v) (hsame : h.SameButObjects h' v)
    {depth depth' : Nat} (he : h.Enough depth v) (he' : h.Enough depth' v) (e : Datum) :
    (h'.viewWithin depth' v).equal e = (h.viewWithin depth v).equal e := by
  induction depth generalizing v depth' e with
  | zero =>
    cases hnode : v.node? with
    | none => rw [viewWithin_scalar hnode 0 depth']
    | some id =>
      obtain ⟨less, hless⟩ := he.exists_succ hv hnode
      cases hless
  | succ depth ih =>
    cases hnode : v.node? with
    | none => rw [viewWithin_scalar hnode (depth + 1) depth']
    | some id =>
      obtain ⟨depth', rfl⟩ := he'.exists_succ hv hnode
      obtain ⟨node, hid, hfits⟩ := hv id hnode
      rcases hsame id (reaches_of_node? hnode) with hkept | ⟨o, o', ho, ho'⟩
      · rw [hid] at hkept
        cases node with
        | list l =>
          obtain rfl := hfits.eq_list hnode
          rw [viewWithin_list depth' hkept, viewWithin_list depth hid]
          -- Only here is there anything to compare: the items, one level deeper.
          have hitems : ∀ u ∈ l.items.toList, ∀ e,
              (h'.viewWithin depth' u).equal e = (h.viewWithin depth u).equal e := by
            intro u hu e
            obtain ⟨index, hindex⟩ := getElem?_eq_some_of_mem hu
            have hat : h.at? id (.item index) = some u := by
              rw [at?_of_node hid]
              exact hindex
            exact ih (hs.stored _ _ u hat) (fun n hn => hsame n (.of_stored hnode hat hn))
              (he.stored hs hnode hat) (he'.stored hs hnode hat) e
          cases e with
          | list capacity items => exact equalAll_map_congr hitems items
          | _ => rfl
        | object o =>
          obtain rfl := hfits.eq_object hnode
          rw [viewWithin_object depth' hkept, viewWithin_object depth hid]
          cases e <;> rfl
        | hollow =>
          cases v with
          | object id' =>
            cases hnode
            simp only [viewWithin, hid, hkept]
          | _ => exact absurd hfits (by simp [Node.Fits])
      · rw [ho] at hid
        cases hid
        obtain rfl := hfits.eq_object hnode
        rw [viewWithin_object depth' ho', viewWithin_object depth ho]
        cases e <;> rfl

/-- What a value equals does not change with what an object holds. -/
theorem equal_view_put_object (hs : h.Sound) (ho : h.nodes[id]? = some (.object o))
    (o' : ObjectNode) {x : Value} (hx : h.Valid x) (e : Datum) :
    ((h.put id (.object o')).view x).equal e = (h.view x).equal e := by
  refine equal_viewWithin hs hx ?_ (enough_size h x)
    ((enough_size h x).mono (Nat.le_of_eq (size_put _ _).symm)) e
  intro n hn
  by_cases hid : id = n
  · subst hid
    exact .inr ⟨o, o', ho, getElem?_put_self _ (lt_size_of_getElem? ho)⟩
  · exact .inl (getElem?_put_ne _ hid)

/-- **Storing in an object keeps equality:** what a value equals does not depend on what the
    objects in it hold. -/
theorem equal_view_store (hs : h.Sound) {x : Value} (hst : h.store id key v = .ok h')
    (hx : h.Valid x) (e : Datum) : (h'.view x).equal e = (h.view x).equal e := by
  have hc := ChangeThrough.store hs hst
  obtain ⟨o, ho, -⟩ := store_cases hst
  obtain ⟨o', ho', -⟩ := hc.change.later.object ho
  rw [object?_eq_some_iff] at ho ho'
  refine equal_viewWithin hs hx ?_ (enough_size h x) ((enough_size h x).mono hc.change.size_le) e
  intro n hn
  by_cases hid : id = n
  · subst hid
    exact .inr ⟨o, o', ho, ho'⟩
  · refine .inl (hc.others n (hs.reaches_lt_size hx hn) ?_)
    intro heq
    exact hid (Option.some.inj heq)

/-! ## Places of keys -/

/-- The first place of an object with a key that equals given contents. -/
def placeOf? (h : Heap) (o : ObjectNode) (wanted : Datum) : Option Nat :=
  o.keys.toList.findIdx? fun k => (h.view k).equal wanted

theorem keyIndex?_eq_placeOf? (h : Heap) (o : ObjectNode) (key : Value) :
    h.keyIndex? o key = h.placeOf? o (h.view key) := rfl

theorem placeOf?_lt {d : Datum} {index : Nat} (hplace : h.placeOf? o d = some index) :
    index < o.keys.size := by
  obtain ⟨hlt, -⟩ := List.findIdx?_eq_some_iff_getElem.mp hplace
  rw [Array.length_toList] at hlt
  exact hlt

theorem findIdx?_congr {α : Type} {p q : α → Bool} {xs : List α} (hpq : ∀ x ∈ xs, p x = q x) :
    xs.findIdx? p = xs.findIdx? q := by
  induction xs with
  | nil => rfl
  | cons x rest ih =>
    rw [List.findIdx?_cons, List.findIdx?_cons, hpq x List.mem_cons_self,
      ih fun y hy => hpq y (List.mem_cons_of_mem _ hy)]

/-- **Equal keys have the same place.** -/
theorem placeOf?_of_equal (o : ObjectNode) {d e : Datum} (hde : d.equal e = true) :
    h.placeOf? o d = h.placeOf? o e := by
  apply findIdx?_congr
  intro k _
  rw [Bool.eq_iff_iff]
  constructor
  · intro hkd
    exact Datum.equal_trans hkd hde
  · intro hke
    rw [Datum.equal_comm] at hde
    exact Datum.equal_trans hke hde

/-- **A place is found by equal keys only.** -/
theorem equal_of_placeOf? {d e : Datum} {index : Nat} (hd : h.placeOf? o d = some index)
    (he : h.placeOf? o e = some index) : d.equal e = true := by
  obtain ⟨_, hkd, -⟩ := List.findIdx?_eq_some_iff_getElem.mp hd
  obtain ⟨_, hke, -⟩ := List.findIdx?_eq_some_iff_getElem.mp he
  rw [Datum.equal_comm] at hkd
  exact Datum.equal_trans hkd hke

/-- A key that does not equal itself has no place: whatever equals something equals itself. -/
theorem placeOf?_of_not_equal_self (o : ObjectNode) {d : Datum} (hd : d.equal d = false) :
    h.placeOf? o d = none := by
  cases hplace : h.placeOf? o d with
  | none => rfl
  | some index =>
    have hself := equal_of_placeOf? hplace hplace
    rw [hd] at hself
    cases hself

/-- The place does not change with what is stored elsewhere in the object. -/
theorem placeOf?_of_same_keys (hkeys : o'.keys = o.keys)
    (hequal : ∀ k ∈ o.keys, ∀ e, (h'.view k).equal e = (h.view k).equal e) (d : Datum) :
    h'.placeOf? o' d = h.placeOf? o d := by
  unfold placeOf?
  rw [hkeys]
  exact findIdx?_congr fun k hk => hequal k (Array.mem_toList_iff.mp hk) d

/-- The place with one more key at the end. -/
theorem placeOf?_of_pushed {k : Value} (hkeys : o'.keys = o.keys.push k)
    (hequal : ∀ k ∈ o.keys, ∀ e, (h'.view k).equal e = (h.view k).equal e) (d : Datum) :
    h'.placeOf? o' d
      = (h.placeOf? o d).or (if (h'.view k).equal d then some o.keys.size else none) := by
  have hold : o.keys.toList.findIdx? (fun k => (h'.view k).equal d) = h.placeOf? o d :=
    findIdx?_congr fun k hk => hequal k (Array.mem_toList_iff.mp hk) d
  unfold placeOf?
  rw [hkeys, Array.toList_push, List.findIdx?_append, hold, List.findIdx?_singleton,
    Array.length_toList, apply_ite (Option.map _)]
  simp only [Option.map_some, Option.map_none, Nat.zero_add, placeOf?]

/-! ## Copies in a later heap -/

/-- **A copy:** a value of a later heap holds what another one held, in nodes made since. -/
structure CopyOf (h : Heap) (v : Value) (h' : Heap) (w : Value) : Prop where
  contents : h'.view w = (h.view v).filled
  isNew : ∀ n, h'.Reaches w n → h.nodes.size ≤ n

theorem copyOf_copy (hs : h.Sound) (v : Value) : h.CopyOf v (h.copy v).2 (h.copy v).1 where
  contents := view_copy hs v
  isNew := fun _ hn => le_of_reaches_copy hs hn

/-- A copy stays a copy while the nodes made since stay. -/
theorem CopyOf.kept (hcopy : h.CopyOf v h' w) (hs : h'.Sound) (hw : h'.Valid w)
    (hle : h'.nodes.size ≤ h''.nodes.size)
    (hkept : ∀ n : Nat, h.nodes.size ≤ n → n < h'.nodes.size → h''.nodes[n]? = h'.nodes[n]?) :
    h.CopyOf v h'' w := by
  have hagree : ∀ n, h'.Reaches w n → h''.nodes[n]? = h'.nodes[n]? :=
    fun n hn => hkept n (hcopy.isNew n hn) (hs.reaches_lt_size hw hn)
  constructor
  · rw [view_of_agree hs hle hw hagree]
    exact hcopy.contents
  · intro n hn
    exact hcopy.isNew n (hn.of_agree hagree)

/-- A copy of what a value holds later is a copy of what it held before, if that is the same. -/
theorem CopyOf.of_view_eq (hcopy : h'.CopyOf v h'' w) (hle : h.nodes.size ≤ h'.nodes.size)
    (hview : h'.view v = h.view v) : h.CopyOf v h'' w where
  contents := by rw [hcopy.contents, hview]
  isNew := fun n hn => Nat.le_trans hle (hcopy.isNew n hn)

/-! ## What a store does -/

/-- **What storing under a key makes of an object.** A known key keeps its place and its
    representation, and its value is replaced; a new key goes last, with its value. What is
    stored are copies. They are exact unless the object itself is in what is copied: storing
    gives it room and a key before the value is copied. -/
inductive StoredAs (h h' : Heap) (id : NodeId) (o : ObjectNode) (key v : Value) :
    ObjectNode → Prop where
  | known {index : Nat} {w : Value} (hindex : h.keyIndex? o key = some index)
      (hvalue : ¬h.Reaches v id → h.CopyOf v h' w) :
      StoredAs h h' id o key v (o.replaceValue index w)
  | new {k w : Value} (hnone : h.keyIndex? o key = none)
      (hkey : ¬h.Reaches key id → h.CopyOf key h' k)
      (hequal : ∀ e, (h'.view k).equal e = (h.view key).equal e)
      (hvalue : ¬h.Reaches v id → h.CopyOf v h' w) :
      StoredAs h h' id o key v ((o.grown.pushKey k).pushValue w)

/-- Replacing an old node leaves a copy alone. -/
theorem copyOf_put_copy (hs : h.Sound) (hid : id < h.nodes.size) (node : Node) (v : Value) :
    h.CopyOf v ((h.copy v).2.put id node) (h.copy v).1 := by
  have hc := Change.copy hs v
  refine (copyOf_copy hs v).kept hc.sound hc.root_valid (Nat.le_of_eq (size_put _ _).symm) ?_
  intro n hn _
  exact getElem?_put_ne node (Nat.ne_of_lt (Nat.lt_of_lt_of_le hid hn))

/-- What a value holds in a heap with another node, when it does not reach that node. -/
theorem view_put_of_not_reaches (hs : h.Sound) (hx : h.Valid v) (hno : ¬h.Reaches v id)
    (node : Node) : (h.put id node).view v = h.view v := by
  refine view_of_agree hs (Nat.le_of_eq (size_put _ _).symm) hx ?_
  intro n hn
  apply getElem?_put_ne
  rintro rfl
  exact hno hn

/-- What a value holds when the key has been placed and the value is about to be copied. -/
theorem view_withKey_of_not_reaches (hs : h.Sound) (ho : h.nodes[id]? = some (.object o))
    (hx : h.Valid v) (hno : ¬h.Reaches v id) (key : Value) :
    (h.withKey id o key).view v = h.view v := by
  refine view_of_agree hs (Change.withKey hs ho key).size_le hx ?_
  intro n hn
  apply getElem?_withKey_ne (hs.reaches_lt_size hx hn)
  rintro rfl
  exact hno hn

/-- The key that a store places is the copy of a moment before, and stays it. -/
theorem copyOf_placed_key (hs : h.Sound) (ho : h.nodes[id]? = some (.object o)) (key v : Value)
    (node : Node) :
    (h.put id (.object o.grown)).CopyOf key (((h.withKey id o key).copy v).2.put id node)
      ((h.put id (.object o.grown)).copy key).1 := by
  have hgrown := change_grown_object hs ho
  have hlt : id < (h.put id (.object o.grown)).nodes.size := by
    rw [size_put]
    exact lt_size_of_getElem? ho
  have hplaced : (h.put id (.object o.grown)).CopyOf key (h.withKey id o key)
      ((h.put id (.object o.grown)).copy key).1 := copyOf_put_copy hgrown.sound hlt _ key
  have hkeyed := Change.withKey hs ho key
  have hcopied := Change.copy hkeyed.sound v
  refine hplaced.kept hkeyed.sound ?_ (by rw [size_put]; exact hcopied.size_le) ?_
  · -- The key is stored in the object, so it is valid.
    refine hkeyed.sound.stored id (.key o.keys.size) _ ?_
    rw [at?_of_node (getElem?_withKey ho key)]
    exact Array.getElem?_push_size
  · intro n hn hn'
    rw [getElem?_put_copy_ne node v hn' (Nat.ne_of_lt (Nat.lt_of_lt_of_le hlt hn))]

/-- **One store.** -/
theorem storedAs_of_store (hs : h.Sound) (ho : h.object? id = some o) (hkey : h.Valid key)
    (hv : h.Valid v) (hst : h.store id key v = .ok h') :
    ∃ o', h'.object? id = some o' ∧ StoredAs h h' id o key v o' := by
  obtain ⟨o₁, ho₁, ⟨index, hindex, -, rfl⟩ | ⟨hnone, rfl⟩⟩ := store_cases hst
  · rw [ho] at ho₁
    cases ho₁
    rw [object?_eq_some_iff] at ho
    have hlt : id < h.nodes.size := lt_size_of_getElem? ho
    refine ⟨_, object?_eq_some_iff.mpr (getElem?_put_self _ ?_), .known hindex ?_⟩
    · exact Nat.lt_of_lt_of_le hlt (Change.copy hs v).size_le
    · intro _
      exact copyOf_put_copy hs hlt _ v
  · rw [ho] at ho₁
    cases ho₁
    rw [object?_eq_some_iff] at ho
    have hlt : id < h.nodes.size := lt_size_of_getElem? ho
    have hgrown := change_grown_object hs ho
    have hkeyed := Change.withKey hs ho key
    have hlt' : id < (h.withKey id o key).nodes.size := Nat.lt_of_lt_of_le hlt hkeyed.size_le
    have hplaced := copyOf_placed_key hs ho key v
      (.object ((h.keyed id o key).pushValue ((h.withKey id o key).copy v).1))
    refine ⟨_, object?_eq_some_iff.mpr (getElem?_put_self _ ?_), .new hnone ?_ ?_ ?_⟩
    · exact Nat.lt_of_lt_of_le hlt' (Change.copy hkeyed.sound v).size_le
    · intro hno
      exact hplaced.of_view_eq hgrown.size_le (view_put_of_not_reaches hs hkey hno _)
    · -- Room for one more key is nothing that equality sees.
      intro e
      rw [hplaced.contents, Datum.equal_filled]
      exact equal_view_put_object hs ho _ hkey e
    · intro hno
      exact (copyOf_put_copy hkeyed.sound hlt' _ v).of_view_eq hkeyed.size_le
        (view_withKey_of_not_reaches hs ho hv hno key)

/-! ## Lookups after a store -/

theorem lookup_of_place {index : Nat} (ho : h.object? id = some o)
    (hindex : h.keyIndex? o key = some index) (hw : o.values[index]? = some w) :
    h.lookup id key = .ok w := by
  simp only [lookup, ho, hindex, valueAt, hw]

theorem lookup_of_no_place (ho : h.object? id = some o) (hnone : h.keyIndex? o key = none) :
    h.lookup id key = .ok .nil := by
  simp only [lookup, ho, hnone]

theorem hasKey_eq (ho : h.object? id = some o) (key : Value) :
    h.hasKey id key = (h.keyIndex? o key).isSome := by
  simp only [hasKey, ho, Option.bind_some]

theorem keyCount_eq (ho : h.object? id = some o) : h.keyCount id = o.keys.size := by
  simp only [keyCount, ho, Option.map_some, Option.getD_some]

/-- What is stored in a node does not reach it. -/
theorem Sound.not_reaches_of_stored (hs : h.Sound) {p : Place} (hw : h.at? id p = some w) :
    ¬h.Reaches w id := by
  rintro ⟨root, hroot, hpath⟩
  have hup : id < root := hs.ascending id root ⟨p, w, hw, hroot⟩
  have hdown : root ≤ id := hs.le_of_path hpath
  exact Nat.lt_irrefl _ (Nat.lt_of_lt_of_le hup hdown)

/-- What does not reach the object holds what it held. -/
theorem view_store_of_not_reaches (hs : h.Sound) {x : Value} (hst : h.store id key v = .ok h')
    (hx : h.Valid x) (hno : ¬h.Reaches x id) : h'.view x = h.view x := by
  refine (ChangeThrough.store hs hst).view_of_not_reaches hs hx ?_
  rintro n heq
  cases heq
  exact hno

namespace StoredAs

variable (hstored : StoredAs h h' id o key v o')

include hstored

/-- Old keys keep their places, and a new key comes behind them. -/
theorem keys_eq :
    (h.keyIndex? o key ≠ none ∧ o'.keys = o.keys) ∨
      h.keyIndex? o key = none ∧ ∃ k, o'.keys = o.keys.push k ∧
        (¬h.Reaches key id → h.CopyOf key h' k) ∧
        ∀ e, (h'.view k).equal e = (h.view key).equal e := by
  cases hstored with
  | known hindex hvalue => exact .inl ⟨by rw [hindex]; exact Option.some_ne_none _, rfl⟩
  | new hnone hkey hequal hvalue => exact .inr ⟨hnone, _, rfl, hkey, hequal⟩

/-- Where a key that equals the stored one is found, there is the stored value. -/
theorem found (hsizes : o.keys.size = o.values.size)
    (hequal : ∀ k ∈ o.keys, ∀ e, (h'.view k).equal e = (h.view k).equal e) :
    ∃ w, (¬h.Reaches v id → h.CopyOf v h' w) ∧
      ∀ d, (h.view key).equal d = true →
        ∃ index, h'.placeOf? o' d = some index ∧ o'.values[index]? = some w := by
  cases hstored with
  | @known index w hindex hvalue =>
    refine ⟨w, hvalue, ?_⟩
    intro d hd
    have hlt : index < o.values.size := by
      rw [← hsizes]
      exact keyIndex?_lt hindex
    have hkept : h'.placeOf? (o.replaceValue index w) d = h.placeOf? o d :=
      placeOf?_of_same_keys rfl hequal d
    refine ⟨index, ?_, ?_⟩
    · rw [hkept, ← placeOf?_of_equal o hd]
      exact hindex
    · show (o.values.setIfInBounds index w)[index]? = some w
      rw [Array.getElem?_setIfInBounds, if_pos rfl, if_pos hlt]
  | @new k w hnone hkey hlast hvalue =>
    refine ⟨w, hvalue, ?_⟩
    intro d hd
    refine ⟨o.keys.size, ?_, ?_⟩
    · rw [placeOf?_of_pushed (o := o) (k := k) rfl hequal, ← placeOf?_of_equal o hd, hlast d,
        if_pos hd, ← keyIndex?_eq_placeOf?, hnone]
      rfl
    · show (o.values.push w)[o.keys.size]? = some w
      rw [hsizes]
      exact Array.getElem?_push_size

/-- Where any other key is found, nothing has changed. -/
theorem others (hsizes : o.keys.size = o.values.size)
    (hequal : ∀ k ∈ o.keys, ∀ e, (h'.view k).equal e = (h.view k).equal e) {d : Datum}
    (hd : (h.view key).equal d = false) :
    h'.placeOf? o' d = h.placeOf? o d ∧
      ∀ index, h.placeOf? o d = some index → o'.values[index]? = o.values[index]? := by
  cases hstored with
  | @known place w hindex hvalue =>
    refine ⟨placeOf?_of_same_keys (o := o) rfl hequal d, ?_⟩
    intro index hplace
    -- At the place of the stored key the two keys would be equal.
    have hne : place ≠ index := by
      rintro rfl
      rw [keyIndex?_eq_placeOf?] at hindex
      rw [equal_of_placeOf? hindex hplace] at hd
      cases hd
    show (o.values.setIfInBounds place w)[index]? = o.values[index]?
    rw [Array.getElem?_setIfInBounds, if_neg hne]
  | @new k w hnone hkey hlast hvalue =>
    constructor
    · rw [placeOf?_of_pushed (o := o) (k := k) rfl hequal, hlast d, hd]
      exact Option.or_none
    · intro index hplace
      have hlt : index < o.values.size := by
        rw [← hsizes]
        exact placeOf?_lt hplace
      show (o.values.push w)[index]? = o.values[index]?
      rw [Array.getElem?_push_lt hlt, Array.getElem?_eq_getElem hlt]

end StoredAs

section Store

variable (hs : h.Sound) (ho : h.object? id = some o) (hst : h.store id key v = .ok h')

include hs ho hst

/-- Keys and values of the object do not reach it, so they hold what they held. -/
theorem view_inside_store {p : Place} {x : Value} (hx : (Node.object o).at? p = some x) :
    h'.view x = h.view x := by
  have hat : h.at? id p = some x := by
    rw [at?_of_node (object?_eq_some_iff.mp ho)]
    exact hx
  exact view_store_of_not_reaches hs hst (hs.stored id p x hat) (hs.not_reaches_of_stored hat)

theorem view_key_store {k : Value} (hk : k ∈ o.keys) : h'.view k = h.view k := by
  obtain ⟨index, hindex⟩ := Array.mem_iff_getElem?.mp hk
  exact view_inside_store hs ho hst (p := .key index) hindex

/-- **Every key that equals the stored one** finds the stored value. -/
theorem lookup_store_of_equal (hsizes : o.keys.size = o.values.size)
    (ho' : h'.object? id = some o') (hstored : StoredAs h h' id o key v o') :
    ∃ w, (¬h.Reaches v id → h.CopyOf v h' w) ∧ ∀ k, (h.view key).equal (h'.view k) = true →
      h'.lookup id k = .ok w ∧ h'.hasKey id k = true := by
  obtain ⟨w, hcopy, hfound⟩ :=
    hstored.found hsizes fun k hk e => by rw [view_key_store hs ho hst hk]
  refine ⟨w, hcopy, ?_⟩
  intro k hk
  obtain ⟨index, hindex, hw⟩ := hfound (h'.view k) hk
  rw [hasKey_eq ho', keyIndex?_eq_placeOf?, hindex]
  exact ⟨lookup_of_place ho' hindex hw, rfl⟩

/-- **Every other key** finds what it found. -/
theorem lookup_store_of_not_equal (hsizes : o.keys.size = o.values.size)
    (ho' : h'.object? id = some o') (hstored : StoredAs h h' id o key v o') {k : Value}
    (hk : h.Valid k) (hother : (h.view key).equal (h.view k) = false) :
    h'.lookup id k = h.lookup id k ∧ h'.hasKey id k = h.hasKey id k ∧
      ∀ w, h.lookup id k = .ok w → h'.view w = h.view w := by
  obtain ⟨hplace, hvalues⟩ :=
    hstored.others hsizes (fun k hk e => by rw [view_key_store hs ho hst hk]) hother
  -- The other key may hold the object, but what it equals has not changed.
  have hsame : h'.keyIndex? o' k = h.keyIndex? o k := by
    rw [keyIndex?_eq_placeOf? h, ← hplace]
    apply findIdx?_congr
    intro x _
    rw [Datum.equal_comm, equal_view_store hs hst hk, Datum.equal_comm]
  rw [hasKey_eq ho', hasKey_eq ho, hsame]
  cases hindex : h.keyIndex? o k with
  | none =>
    rw [lookup_of_no_place ho hindex, lookup_of_no_place ho' (hsame.trans hindex)]
    refine ⟨rfl, rfl, ?_⟩
    intro w hw
    cases hw
    exact viewWithin_scalar rfl _ _
  | some index =>
    have hlt : index < o.values.size := by
      rw [← hsizes]
      exact keyIndex?_lt hindex
    have hw := Array.getElem?_eq_getElem hlt
    rw [lookup_of_place ho hindex hw,
      lookup_of_place ho' (hsame.trans hindex) ((hvalues index hindex).trans hw)]
    refine ⟨rfl, rfl, ?_⟩
    intro w heq
    cases heq
    exact view_inside_store hs ho hst (p := .value index) hw

end Store

/-- A key that does not equal itself is not known. -/
theorem hasKey_of_not_equal_self (hself : (h.view key).equal (h.view key) = false) :
    h.hasKey id key = false := by
  cases ho : h.object? id with
  | none => simp only [hasKey, ho, Option.bind_none, Option.isSome_none]
  | some o =>
    rw [hasKey_eq ho, keyIndex?_eq_placeOf?, placeOf?_of_not_equal_self o hself]
    rfl

end Heap

/-! ## The laws of a map -/

open Heap in
/-- **Storing in an object that has a value for each key** succeeds if the value does not reach
    the object, and then:

    * every key that equals the stored one is known, and has a copy of the value;
    * every other key is known or not as before, and has the value that it had, with the
      contents that it had;
    * there is one key more exactly when the key was not known; the old keys keep their places
      and contents, and a new key is a copy that stands behind them;
    * under a key that does not equal itself one more entry is made each time, and the key is
      as unknown as before. -/
theorem lookup_after_store {h : Heap} {id : NodeId} {o : ObjectNode} {key v : Value}
    (hs : h.Sound) (ho : h.object? id = some o) (hsizes : o.keys.size = o.values.size)
    (hkey : h.Valid key) (hv : h.Valid v) (hno : ¬h.Reaches v id) :
    ∃ h' o', h.store id key v = .ok h' ∧ h'.object? id = some o' ∧
      (∃ w, h.CopyOf v h' w ∧ ∀ k, (h.view key).equal (h'.view k) = true →
        h'.lookup id k = .ok w ∧ h'.hasKey id k = true) ∧
      (∀ k, h.Valid k → (h.view key).equal (h.view k) = false →
        h'.lookup id k = h.lookup id k ∧ h'.hasKey id k = h.hasKey id k ∧
          ∀ w, h.lookup id k = .ok w → h'.view w = h.view w) ∧
      (h'.keyCount id = h.keyCount id + if h.hasKey id key then 0 else 1) ∧
      (∀ k ∈ o.keys, h'.view k = h.view k) ∧
      (h.hasKey id key = true → o'.keys = o.keys) ∧
      (h.hasKey id key = false → ∃ k, o'.keys = o.keys.push k ∧
        (¬h.Reaches key id → h.CopyOf key h' k) ∧
        ∀ e, (h'.view k).equal e = (h.view key).equal e) ∧
      ((h.view key).equal (h.view key) = false →
        h.hasKey id key = false ∧ h'.hasKey id key = false) := by
  obtain ⟨h', hst⟩ := exists_store (object?_eq_some_iff.mp ho) hsizes key v
  obtain ⟨o', ho', hstored⟩ := storedAs_of_store hs ho hkey hv hst
  obtain ⟨w, hcopy, hfound⟩ := lookup_store_of_equal hs ho hst hsizes ho' hstored
  refine ⟨h', o', hst, ho', ⟨w, hcopy hno, hfound⟩, ?_, ?_, ?_, ?_, ?_, ?_⟩
  · intro k hk hother
    exact lookup_store_of_not_equal hs ho hst hsizes ho' hstored hk hother
  · rw [keyCount_eq ho', keyCount_eq ho, hasKey_eq ho]
    rcases hstored.keys_eq with ⟨hknown, hsame⟩ | ⟨hnone, k, hpushed, -⟩
    · rw [if_pos (Option.isSome_iff_ne_none.mpr hknown), hsame, Nat.add_zero]
    · rw [hnone, hpushed, Array.size_push]
      rfl
  · intro k hk
    exact view_key_store hs ho hst hk
  · rw [hasKey_eq ho]
    intro hknown
    rcases hstored.keys_eq with ⟨-, hsame⟩ | ⟨hnone, -⟩
    · exact hsame
    · rw [hnone] at hknown
      cases hknown
  · rw [hasKey_eq ho]
    intro hnew
    rcases hstored.keys_eq with ⟨hknown, -⟩ | ⟨-, hlast⟩
    · exact absurd (Option.isSome_eq_false_iff.mp hnew) (by simpa using hknown)
    · exact hlast
  · intro hself
    refine ⟨hasKey_of_not_equal_self hself, hasKey_of_not_equal_self ?_⟩
    rw [equal_view_store hs hst hkey, Datum.equal_comm, equal_view_store hs hst hkey]
    exact hself

open Heap in
/-- In an object with the keys `0` and "not a number", the key `0` is overwritten under `-0`: no
    key is added, and "not a number" is not found before or after. -/
theorem zero_overwritten_under_negative_zero :
    ∃ (h h' : Heap) (o : ObjectNode), h.Sound ∧ h.object? 0 = some o ∧
      o.keys = #[.number (.zero false), .number .nan] ∧ o.keys.size = o.values.size ∧
      ¬h.Reaches (.boolean true) 0 ∧
      h.store 0 (.number (.zero true)) (.boolean true) = .ok h' ∧
      (∃ w, h'.lookup 0 (.number (.zero false)) = .ok w ∧ h'.view w = .boolean true) ∧
      h'.lookup 0 (.number .nan) = .ok .nil ∧ h'.keyCount 0 = 2 := by
  let d : Datum := .object 8 [.number (.zero false), .number .nan] [.nil, .nil]
  have hc := Change.alloc sound_empty d
  have hno : ¬(Heap.empty.alloc d).2.Reaches (.boolean true) 0 := by
    rintro ⟨root, hroot, -⟩
    cases hroot
  obtain ⟨h', o', hst, -, ⟨w, hcopy, hfound⟩, hother, hcount, -⟩ :=
    @lookup_after_store _ 0 _ (.number (.zero true)) (.boolean true) hc.sound rfl rfl
      (valid_number _) (valid_boolean true) hno
  refine ⟨_, h', _, hc.sound, rfl, rfl, rfl, hno, hst, ⟨w, ?_, hcopy.contents⟩, ?_, hcount⟩
  · refine (hfound (.number (.zero false)) ?_).1
    simp only [view, viewWithin]
    decide
  · exact (hother (.number .nan) (valid_number _) (by decide)).1

end ValueRuntime
