import ValueRuntime.Proofs.Heap.Lookup
import ValueRuntime.Proofs.Machine.Rebuilding
import ValueRuntime.Proofs.Number.Integers

/-! # Subscripts

    A subscript leads somewhere in two cases only: from a list and a number that is the integer
    of one of its positions, or from an object and a string. Reading and writing agree on these
    cases. Elsewhere both give nil, and writing does nothing.

    Where a subscript leads somewhere, writing puts a copy there. It changes one node, the one
    of the receiver, so what stands at other positions or under other keys is the same value as
    before, and holds what it held, since nothing that is stored in a node reaches that node.
-/

namespace ValueRuntime

open Number

/-! ## Places -/

/-- **A subscript that leads somewhere:** to an item that is there, or to any string key. -/
inductive Heap.Assignable (h : Heap) : Value → Value → Prop where
  | item {id : NodeId} {l : ListNode} {x : Number} {i : Nat} (hl : h.list? id = some l)
      (hx : x.IsInteger i) (hi : i < l.items.size) : h.Assignable (.list id) (.number x)
  | entry (id : NodeId) (key : Bytes) : h.Assignable (.object id) (.string key)

/-- **Two subscripts for one place:** the same value, or numbers that are the same integer. -/
def SameIndex (index index' : Value) : Prop :=
  index = index' ∨
    ∃ x y i, index = .number x ∧ index' = .number y ∧ x.IsInteger i ∧ y.IsInteger i

theorem Number.IsInteger.eq_of_isInteger {x : Number} {i j : Int} (hi : x.IsInteger i)
    (hj : x.IsInteger j) : i = j := by
  have hself : x.equal x = true := (hi.equal_iff hi).mpr rfl
  exact (hi.equal_iff hj).mp hself

/-- Another index of the place of an integer is that integer too. -/
theorem SameIndex.isInteger {x : Number} {i : Int} {index : Value}
    (hsame : SameIndex (.number x) index) (hx : x.IsInteger i) :
    ∃ y, index = .number y ∧ y.IsInteger i := by
  rcases hsame with rfl | ⟨x', y, j, hx', rfl, hj, hy⟩
  · exact ⟨x, rfl, hx⟩
  · cases hx'
    rw [hx.eq_of_isInteger hj]
    exact ⟨y, rfl, hy⟩

theorem sameIndex_string_iff {key : Bytes} {index : Value} :
    SameIndex (.string key) index ↔ .string key = index := by
  constructor
  · rintro (heq | ⟨x, y, i, hx, -⟩)
    · exact heq
    · cases hx
  · exact .inl

/-! ## Items -/

namespace Heap

variable {h h' : Heap} {id : NodeId} {l : ListNode} {v : Value}

/-- An item is stored in its list, so it holds what it held after a change of the list. -/
theorem ChangeThrough.view_item (hc : ChangeThrough h h' (.list id)) (hs : h.Sound)
    (hl : h.list? id = some l) (index : Nat) :
    h'.view (h.item id index) = h.view (h.item id index) := by
  rw [item_of_list hl]
  cases hitem : l.items[index]? with
  | none => exact viewWithin_scalar rfl _ _
  | some u =>
    have hat : h.at? id (.item index) = some u := by
      rw [at?_of_node (list?_eq_some_iff.mp hl)]
      exact hitem
    exact hc.view_of_not_reaches hs (hs.stored id _ u hat) fun n hn =>
      Option.some.inj hn ▸ hs.not_reaches_of_stored hat

/-- **Replacing an item** that is there. -/
theorem replaceItem_of_lt (hs : h.Sound) (hl : h.list? id = some l) {i : Nat}
    (hi : i < l.items.size) (v : Value) :
    (h.replaceItem id i v).2.list? id = some (l.replace i (h.copy v).1) ∧
      h.CopyOf v (h.replaceItem id i v).2 (h.copy v).1 := by
  have hnode := list?_eq_some_iff.mp hl
  have hlt : id < h.nodes.size := lt_size_of_getElem? hnode
  have hafter : (h.replaceItem id i v).2
      = (h.copy v).2.put id (.list (l.replace i (h.copy v).1)) := by
    have hany : (h.list? id).any (i < ·.items.size) = true := by
      rw [hl, Option.any_some, decide_eq_true hi]
    unfold replaceItem
    rw [if_pos hany]
    exact modifyList_of_list (getElem?_copy_of_node hnode v) _
  rw [hafter]
  refine ⟨list?_eq_some_iff.mpr (getElem?_put_self _ ?_), copyOf_put_copy hs hlt _ v⟩
  exact Nat.lt_of_lt_of_le hlt (Change.copy hs v).size_le

/-- Where there is no item, nothing is replaced and nothing is read. -/
theorem replaceItem_of_not_lt {i : Nat} (hno : ∀ l, h.list? id = some l → ¬i < l.items.size)
    (v : Value) : (h.replaceItem id i v).2 = h ∧ h.item id i = .nil := by
  unfold replaceItem item
  cases hl : h.list? id with
  | none => exact ⟨rfl, rfl⟩
  | some l =>
    have hout := hno l hl
    constructor
    · rw [Option.any_some, decide_eq_false hout]
      rfl
    · rw [Option.bind_some, Array.getElem?_eq_none (Nat.not_lt.mp hout)]
      rfl

/-! ## Entries -/

theorem view_string (h : Heap) (key : Bytes) : h.view (.string key) = .string key := by
  simp only [view, viewWithin]

/-- Only a string looks like one. -/
theorem eq_of_view_eq_string {key : Bytes} (hview : h.view v = .string key) :
    v = .string key := by
  unfold view at hview
  cases v with
  | list id =>
    generalize h.nodes.size = depth at hview
    cases depth with
    | zero => cases hview
    | succ depth =>
      simp only [viewWithin] at hview
      split at hview <;> cases hview
  | object id =>
    generalize h.nodes.size = depth at hview
    cases depth with
    | zero => cases hview
    | succ depth =>
      simp only [viewWithin] at hview
      split at hview <;> cases hview
  | string s =>
    simp only [viewWithin, Datum.string.injEq] at hview
    rw [hview]
  | _ => simp only [viewWithin, reduceCtorEq] at hview

/-- Only a string equals a string. -/
theorem equal_view_string_iff {key : Bytes} {k : Value} :
    (h.view (.string key)).equal (h'.view k) = true ↔ k = .string key := by
  have hequal : ∀ d : Datum, (Datum.string key).equal d = true ↔ d = .string key := by
    intro d
    cases d with
    | string s => rw [Datum.equal, beq_iff_eq, Datum.string.injEq, eq_comm]
    | _ => simp [Datum.equal]
  rw [view_string, hequal]
  constructor
  · exact eq_of_view_eq_string
  · rintro rfl
    exact view_string h' key

/-- An object with a value for each key gives something for every key. -/
theorem exists_lookup {o : ObjectNode} (ho : h.object? id = some o)
    (hsizes : o.keys.size = o.values.size) (key : Value) : ∃ u, h.lookup id key = .ok u := by
  cases hindex : h.keyIndex? o key with
  | none => exact ⟨.nil, lookup_of_no_place ho hindex⟩
  | some index =>
    have hlt : index < o.values.size := by
      rw [← hsizes]
      exact keyIndex?_lt hindex
    exact ⟨_, lookup_of_place ho hindex (Array.getElem?_eq_getElem hlt)⟩

end Heap

/-! ## Reading -/

namespace Session

variable {s s' : Session} {id : NodeId} {receiver index v w : Value}

theorem returns_subscript_list (s : Session) (id : NodeId) (x : Number) :
    s.Returns (Action.subscript (.list id) (.number x)) (x.toNat?.elim .nil (s.heap.item id)) s :=
  ⟨rfl, rfl⟩

theorem returns_ofFault {α : Type} {result : Except Fault α} {a : α} (hok : result = .ok a) :
    s.Returns (Action.ofFault result) a s := by
  rw [hok]
  exact ⟨rfl, rfl⟩

theorem returns_subscript_object {key : Bytes} (hw : s.heap.lookup id (.string key) = .ok w) :
    s.Returns (Action.subscript (.object id) (.string key)) w s := by
  show s.Returns (MonadState.get >>= fun m : Machine =>
    Action.ofFault (m.heap.lookup id (.string key))) w s
  exact Returns.get (returns_ofFault hw)

/-- A subscript of an integer reads an item. -/
theorem returns_subscript_of_isInteger {x : Number} {i : Nat} (hx : x.IsInteger i) :
    s.Returns (Action.subscript (.list id) (.number x)) (s.heap.item id i) s := by
  have hread := returns_subscript_list s id x
  rw [toNat?_eq_some_iff.mpr hx] at hread
  exact hread

/-! ## Writing -/

/-- **What writing to a place does.** The result is a copy of the value, and it is read at the
    place. Everything else that the receiver holds is read as before, and holds what it held. A
    list keeps its length and its room, all other nodes are as they were, and nothing but the
    heap has changed. -/
structure Assigned (s s' : Session) (receiver index v w : Value) : Prop where
  copy : s.heap.CopyOf v s'.heap w
  same : ∀ index', SameIndex index index' → s'.Returns (Action.subscript receiver index') w s'
  others : ∀ index', ¬SameIndex index index' → ∃ u,
    s.Returns (Action.subscript receiver index') u s ∧
      s'.Returns (Action.subscript receiver index') u s' ∧ s'.heap.view u = s.heap.view u
  keys : ∀ id key, receiver = .object id → s.heap.Valid key → key ≠ index → ∃ u,
    s.heap.lookup id key = .ok u ∧ s'.heap.lookup id key = .ok u ∧
      s'.heap.view u = s.heap.view u
  list : ∀ id l, receiver = .list id → s.heap.list? id = some l → ∃ l',
    s'.heap.list? id = some l' ∧ l'.items.size = l.items.size ∧ l'.capacity = l.capacity
  nodes : ∀ n : Nat, n < s.heap.nodes.size → receiver.node? ≠ some n →
    s'.heap.nodes[n]? = s.heap.nodes[n]?
  outside : s' = s.withHeap s'.heap

theorem returns_setSubscript_list {x : Number} {i : Nat} (hx : x.toNat? = some i) (v : Value) :
    s.Returns (Action.setSubscript (.list id) (.number x) v)
      ((s.heap.replaceItem id i v).2.item id i) (s.withHeap (s.heap.replaceItem id i v).2) := by
  unfold Action.setSubscript
  dsimp only
  rw [hx]
  exact ⟨rfl, rfl⟩

theorem returns_setSubscript_object {key : Bytes} {h' : Heap}
    (hst : s.heap.store id (.string key) v = .ok h')
    (hw : h'.lookup id (.string key) = .ok w) :
    s.Returns (Action.setSubscript (.object id) (.string key) v) w (s.withHeap h') := by
  have hstep : (do return ((), ← s.heap.store id (.string key) v) : Except Fault (Unit × Heap))
      = .ok ((), h') := by
    rw [hst]
    rfl
  obtain ⟨hafter, hresult⟩ :=
    tryHeap_of_ok (s := s) (fun h => do return ((), ← h.store id (.string key) v)) hstep
  exact Returns.bind ⟨hresult, hafter⟩ (Returns.get (returns_ofFault hw))

/-- **Writing an item.** -/
theorem assigned_item {l : ListNode} {x : Number} {i : Nat} (hs : s.heap.Sound)
    (hl : s.heap.list? id = some l) (hx : x.IsInteger i) (hi : i < l.items.size) (v : Value) :
    ∃ w s', s.Returns (Action.setSubscript (.list id) (.number x) v) w s' ∧
      Assigned s s' (.list id) (.number x) v w := by
  obtain ⟨hl', hcopy⟩ := Heap.replaceItem_of_lt hs hl hi v
  have hc := Heap.ChangeThrough.replaceItem hs id i v
  generalize hafter : (s.heap.replaceItem id i v).2 = h' at hl' hcopy hc
  have hself : h'.item id i = (s.heap.copy v).1 := by
    rw [Heap.item_of_list hl', ListNode.replace, Array.getElem?_setIfInBounds, if_pos rfl,
      if_pos hi, Option.getD_some]
  have hother : ∀ j, j ≠ i → h'.item id j = s.heap.item id j := by
    intro j hj
    rw [Heap.item_of_list hl', Heap.item_of_list hl, ListNode.replace,
      Array.getElem?_setIfInBounds, if_neg (Ne.symm hj)]
  refine ⟨(s.heap.copy v).1, s.withHeap h', ?_, hcopy, ?_, ?_, ?_, ?_, hc.others, rfl⟩
  · rw [← hself, ← hafter]
    exact returns_setSubscript_list (toNat?_eq_some_iff.mpr hx) v
  · intro index' hsame
    obtain ⟨y, rfl, hy⟩ := hsame.isInteger hx
    have hread : (s.withHeap h').Returns _ (h'.item id i) _ := returns_subscript_of_isInteger hy
    rw [hself] at hread
    exact hread
  · intro index' hdiffers
    cases index' with
    | number y =>
      have hread := returns_subscript_list s id y
      have hread' := returns_subscript_list (s.withHeap h') id y
      cases hy : y.toNat? with
      | none =>
        rw [hy] at hread hread'
        exact ⟨.nil, hread, hread', Heap.viewWithin_scalar rfl _ _⟩
      | some j =>
        have hj : j ≠ i := by
          rintro rfl
          exact hdiffers (.inr ⟨x, y, j, rfl, rfl, hx, toNat?_eq_some_iff.mp hy⟩)
        rw [hy] at hread hread'
        have hsame : (s.withHeap h').heap.item id j = s.heap.item id j := hother j hj
        rw [Option.elim_some, hsame] at hread'
        exact ⟨_, hread, hread', hc.view_item hs hl j⟩
    | _ => exact ⟨.nil, ⟨rfl, rfl⟩, ⟨rfl, rfl⟩, Heap.viewWithin_scalar rfl _ _⟩
  · intro id' key hlist
    cases hlist
  · intro id' l₁ hlist hl₁
    cases hlist
    rw [hl] at hl₁
    cases hl₁
    exact ⟨_, hl', Array.size_setIfInBounds, rfl⟩

/-- **Writing an entry.** -/
theorem assigned_entry {o : ObjectNode} (hs : s.heap.Sound) (ho : s.heap.object? id = some o)
    (hsizes : o.keys.size = o.values.size) (hv : s.heap.Valid v) (hno : ¬s.heap.Reaches v id)
    (key : Bytes) :
    ∃ w s', s.Returns (Action.setSubscript (.object id) (.string key) v) w s' ∧
      Assigned s s' (.object id) (.string key) v w := by
  obtain ⟨h', hst⟩ := Heap.exists_store (Heap.object?_eq_some_iff.mp ho) hsizes (.string key) v
  obtain ⟨o', ho', hstored⟩ :=
    Heap.storedAs_of_store hs ho (Heap.valid_of_node?_eq_none rfl) hv hst
  obtain ⟨w, hcopy, hfound⟩ := Heap.lookup_store_of_equal hs ho hst hsizes ho' hstored
  have hc := Heap.ChangeThrough.store hs hst
  have hself : h'.lookup id (.string key) = .ok w := by
    refine (hfound (.string key) ?_).1
    rw [Heap.equal_view_string_iff]
  -- Every other key finds what it found, and finds something.
  have hother : ∀ k, s.heap.Valid k → k ≠ .string key → ∃ u, s.heap.lookup id k = .ok u ∧
      h'.lookup id k = .ok u ∧ h'.view u = s.heap.view u := by
    intro k hk hne
    have hdiffers : (s.heap.view (.string key)).equal (s.heap.view k) = false := by
      rw [← Bool.not_eq_true, Heap.equal_view_string_iff]
      exact hne
    obtain ⟨hsame, -, hview⟩ :=
      Heap.lookup_store_of_not_equal hs ho hst hsizes ho' hstored hk hdiffers
    obtain ⟨u, hu⟩ := Heap.exists_lookup ho hsizes k
    exact ⟨u, hu, hsame.trans hu, hview u hu⟩
  refine ⟨w, s.withHeap h', returns_setSubscript_object hst hself, hcopy hno, ?_, ?_, ?_, ?_,
    hc.others, rfl⟩
  · intro index' hsame
    rw [← sameIndex_string_iff.mp hsame]
    exact returns_subscript_object hself
  · intro index' hdiffers
    cases index' with
    | string key' =>
      have hne : Value.string key' ≠ .string key := by
        intro heq
        exact hdiffers (.inl heq.symm)
      obtain ⟨u, hu, hu', hview⟩ := hother _ (Heap.valid_of_node?_eq_none rfl) hne
      exact ⟨u, returns_subscript_object hu, returns_subscript_object hu', hview⟩
    | _ => exact ⟨.nil, ⟨rfl, rfl⟩, ⟨rfl, rfl⟩, Heap.viewWithin_scalar rfl _ _⟩
  · intro id' k hobject hk hne
    cases hobject
    exact hother k hk hne
  · intro id' l hlist
    cases hlist

/-- Where a subscript leads nowhere, writing does nothing and gives nil, as reading does. -/
theorem returns_nil_of_not_assignable (hno : ¬s.heap.Assignable receiver index) (v : Value) :
    s.Returns (Action.setSubscript receiver index v) .nil s ∧
      s.Returns (Action.subscript receiver index) .nil s := by
  cases receiver with
  | list id =>
    cases index with
    | number x =>
      have hread := returns_subscript_list s id x
      cases hx : x.toNat? with
      | none =>
        rw [hx] at hread
        refine ⟨?_, hread⟩
        unfold Action.setSubscript
        dsimp only
        rw [hx]
        exact ⟨rfl, rfl⟩
      | some i =>
        have hout : ∀ l, s.heap.list? id = some l → ¬i < l.items.size := by
          intro l hl hi
          exact hno (.item hl (toNat?_eq_some_iff.mp hx) hi)
        obtain ⟨hkept, hnone⟩ := Heap.replaceItem_of_not_lt hout v
        have hwrite : s.Returns (Action.setSubscript (.list id) (.number x) v) _ _ :=
          returns_setSubscript_list hx v
        rw [hkept, hnone] at hwrite
        rw [hx, Option.elim_some, hnone] at hread
        exact ⟨hwrite, hread⟩
    | _ => exact ⟨⟨rfl, rfl⟩, ⟨rfl, rfl⟩⟩
  | object id =>
    cases index with
    | string key => exact absurd (.entry id key) hno
    | _ => exact ⟨⟨rfl, rfl⟩, ⟨rfl, rfl⟩⟩
  | _ => exact ⟨⟨rfl, rfl⟩, ⟨rfl, rfl⟩⟩

end Session

/-- **Reading and writing by subscript.** Let the receiver be anything; if it is an object, it
    has contents with a value for each key, and the value to write does not reach it. Where the
    subscript leads somewhere, writing stores a copy of the value and returns it, and whoever
    reads that place finds it, while all else is as it was. In every other case writing and
    reading give nil, and nothing changes. -/
theorem subscript_after_setSubscript {s : Session} {receiver index v : Value}
    (hs : s.heap.Sound) (hv : s.heap.Valid v)
    (hobject : ∀ id, receiver = .object id → ∃ o, s.heap.object? id = some o ∧
      o.keys.size = o.values.size ∧ ¬s.heap.Reaches v id) :
    (s.heap.Assignable receiver index → ∃ w s',
        s.Returns (Action.setSubscript receiver index v) w s' ∧
          s.Assigned s' receiver index v w) ∧
      (¬s.heap.Assignable receiver index →
        s.Returns (Action.setSubscript receiver index v) .nil s ∧
          s.Returns (Action.subscript receiver index) .nil s) := by
  refine ⟨?_, fun hno => Session.returns_nil_of_not_assignable hno v⟩
  intro hplace
  cases hplace with
  | item hl hx hi => exact Session.assigned_item hs hl hx hi v
  | entry id key =>
    obtain ⟨o, ho, hsizes, hno⟩ := hobject id rfl
    exact Session.assigned_entry hs ho hsizes hv hno key

/-- The object `{a: [1, nil]}`, and its list. Storing the list under its own key stores a copy of
    it, and so does storing it in itself under negative zero, which zero then reads. The list has
    nothing at one half. -/
theorem list_stored_in_itself_at_negative_zero :
    ∃ s : Session, s.heap.Sound ∧
      s.heap.view (.object 0)
        = .object 1 [.string (utf8 "a")] [.list 2 [.number (.ofNat 1), .nil]] ∧
      s.heap.lookup 0 (.string (utf8 "a")) = .ok (.list 1) ∧
      (∃ w s', s.Returns (Action.setSubscript (.object 0) (.string (utf8 "a")) (.list 1)) w s' ∧
        s.Assigned s' (.object 0) (.string (utf8 "a")) (.list 1) w) ∧
      (∃ w s', s.Returns (Action.setSubscript (.list 1) (.number (.zero true)) (.list 1)) w s' ∧
        s'.Returns (Action.subscript (.list 1) (.number (.zero false))) w s' ∧
        s'.heap.view w = .list 2 [.number (.ofNat 1), .nil]) ∧
      s.Returns (Action.setSubscript (.list 1) (.number (.ofBits 0x3fe0000000000000)) .nil) .nil
        s := by
  let d : Datum := .object 1 [.string (utf8 "a")] [.list 2 [.number (.ofNat 1), .nil]]
  let s : Session := (Session.new [] [] true).withHeap (Heap.empty.alloc d).2
  have hs : s.heap.Sound := (Heap.Change.alloc Heap.sound_empty d).sound
  have hlist : s.heap.Valid (.list 1) := hs.stored 0 (.value 0) _ rfl
  have hno : ¬s.heap.Reaches (.list 1) 0 := hs.not_reaches_of_stored (p := .value 0) rfl
  have hview : s.heap.view (.list 1) = .list 2 [.number (.ofNat 1), .nil] :=
    rfl
  refine ⟨s, hs, rfl, by decide +kernel, ?_, ?_, ?_⟩
  · refine (subscript_after_setSubscript hs hlist ?_).1 (.entry 0 _)
    intro id hid
    cases hid
    exact ⟨_, rfl, rfl, hno⟩
  · have hplace : s.heap.Assignable (.list 1) (.number (.zero true)) :=
      .item (i := 0) (l := .of 2 #[.number (.ofNat 1), .nil]) rfl (isInteger_zero true) (by decide)
    obtain ⟨w, s', hset, hassigned⟩ :=
      (subscript_after_setSubscript hs hlist (by rintro id ⟨⟩)).1 hplace
    refine ⟨w, s', hset, hassigned.same _ (.inr ⟨_, _, 0, rfl, rfl, isInteger_zero true,
      isInteger_zero false⟩), ?_⟩
    rw [hassigned.copy.contents, hview]
    rfl
  · refine ((subscript_after_setSubscript hs Heap.valid_nil (by rintro id ⟨⟩)).2 ?_).1
    intro hplace
    cases hplace with
    | item hl hx hi =>
      have hnone : (Number.ofBits 0x3fe0000000000000).toNat? = none := by decide +kernel
      rw [toNat?_eq_some_iff.mpr hx] at hnone
      cases hnone

end ValueRuntime
