import ValueRuntime.Proofs.Heap.Room
import ValueRuntime.Proofs.Machine.Ownership
import ValueRuntime.Proofs.Machine.Sizes
import ValueRuntime.Proofs.Machine.Subscripts

/-! # Growth of lists

    A list grows by one item with each append and in no other way, and its room grows only when
    an append finds it full. Replacing an item changes one place. So the length and the room of
    a list after any run follow from the number of appends in it.

    What is stored are copies, and a run that changes no container but the list leaves them as
    they were made. This includes copies of the list itself: an append lets the list make room,
    copies the value, and pushes the copy only then.
-/

namespace ValueRuntime

/-! ## One operation -/

/-- Whether an operation appends to a list. -/
def Operation.appendsTo (id : NodeId) : Operation → Bool
  | .append id' _ => id' == id
  | _ => false

/-- How often a run appends to a list. -/
def appendCount (id : NodeId) (ops : List Operation) : Nat := ops.countP (·.appendsTo id)

/-- A run that replaces the item at a position of a list. -/
def Replaces (id : NodeId) (index : Nat) (ops : List Operation) : Prop :=
  ∃ v, Operation.replaceItem id index v ∈ ops

/-- **What an operation does to a list.** -/
inductive ListStep (h h' : Heap) (id : NodeId) (l : ListNode) : Operation → ListNode → Prop where
  | appended {v w : Value} (copy : (h.modifyList id .grown).CopyOf v h' w) :
      ListStep h h' id l (.append id v) (l.grown.push w)
  | replaced {index : Nat} {v w : Value} (inside : index < l.items.size)
      (copy : h.CopyOf v h' w) : ListStep h h' id l (.replaceItem id index v) (l.replace index w)
  | kept {op : Operation} (noAppend : op.appendsTo id = false)
      (outside : ∀ index v, op = .replaceItem id index v → l.items.size ≤ index) :
      ListStep h h' id l op l

section Steps

variable {s s' : Session} {op : Operation} {ops before after : List Operation} {id : NodeId}
  {l l' : ListNode} {h h' : Heap} {u v w : Value} {index : Nat}

theorem Heap.copyOf_append (hs : h.Sound) (hl : h.list? id = some l) (v : Value) :
    ∃ w, (h.append id v).list? id = some (l.grown.push w) ∧
      (h.modifyList id .grown).CopyOf v (h.append id v) w := by
  have hnode := list?_eq_some_iff.mp hl
  have hlt : id < (h.put id (.list l.grown)).nodes.size := by
    rw [size_put]
    exact lt_size_of_getElem? hnode
  have hs' : (h.put id (.list l.grown)).Sound := (change_grown hs hnode).sound
  rw [append_of_list hnode, modifyList_of_list hnode]
  refine ⟨_, list?_eq_some_iff.mpr (getElem?_put_self _ ?_), copyOf_put_copy hs' hlt _ v⟩
  exact Nat.lt_of_lt_of_le hlt (Change.copy hs' v).size_le

/-- A list that is not used by an operation stays as it is. -/
theorem Session.list?_perform_of_unused (hs : s.Sound) (hop : op.Allowed s)
    (hl : s.heap.list? id = some l) (hno : ∀ v ∈ op.uses, v.node? ≠ some id) :
    (s.perform op).heap.list? id = some l := by
  rw [Heap.list?_eq_some_iff] at hl ⊢
  rw [(s.heapStep_perform op).others hs.heap hop (Heap.lt_size_of_getElem? hl) hno]
  exact hl

/-- **Every operation** appends to a list, replaces an item of it or keeps it as it is. -/
theorem Session.listStep_perform (hs : s.Sound) (hop : op.Allowed s)
    (hl : s.heap.list? id = some l) :
    ∃ l', (s.perform op).heap.list? id = some l' ∧
      ListStep s.heap (s.perform op).heap id l op l' := by
  have hunused : (∀ v ∈ op.uses, v.node? ≠ some id) → op.appendsTo id = false →
      (∀ index v, op ≠ .replaceItem id index v) → ∃ l',
        (s.perform op).heap.list? id = some l' ∧
          ListStep s.heap (s.perform op).heap id l op l' := by
    intro hno happend hreplace
    exact ⟨l, list?_perform_of_unused hs hop hl hno,
      .kept happend fun index v heq => absurd heq (hreplace index v)⟩
  cases op with
  | append id' v =>
    by_cases hid : id' = id
    · subst hid
      obtain ⟨w, hafter, hcopy⟩ := Heap.copyOf_append hs.heap hl v
      exact ⟨_, hafter, .appended hcopy⟩
    · refine hunused ?_ (beq_eq_false_iff_ne.mpr hid) (by rintro index w ⟨⟩)
      intro w hw
      rw [List.mem_singleton.mp hw]
      exact fun heq => hid (Option.some.inj heq)
  | replaceItem id' index v =>
    by_cases hid : id' = id
    · subst hid
      by_cases hinside : index < l.items.size
      · obtain ⟨hafter, hcopy⟩ := Heap.replaceItem_of_lt hs.heap hl hinside v
        exact ⟨_, hafter, .replaced hinside hcopy⟩
      · have hout : ∀ l', s.heap.list? id' = some l' → ¬index < l'.items.size := by
          intro l' hl'
          rw [hl] at hl'
          cases hl'
          exact hinside
        have hsame : (s.perform (.replaceItem id' index v)).heap = s.heap :=
          (Heap.replaceItem_of_not_lt hout v).1
        rw [hsame]
        refine ⟨l, hl, .kept rfl ?_⟩
        rintro index' v' ⟨⟩
        exact Nat.not_lt.mp hinside
    · refine hunused ?_ rfl ?_
      · intro w hw
        rw [List.mem_singleton.mp hw]
        exact fun heq => hid (Option.some.inj heq)
      · rintro index' v' ⟨⟩
        exact hid rfl
  | store id' key v =>
    refine hunused ?_ rfl (by rintro index w ⟨⟩)
    intro w hw heq
    rw [List.mem_singleton.mp hw] at heq
    -- There is an object where the store goes, and a list where the list is.
    obtain ⟨node, hnode, hfits⟩ := hop _ List.mem_cons_self id heq
    rw [Heap.list?_eq_some_iff.mp hl] at hnode
    cases hnode
    exact hfits
  | hold name v => exact ⟨l, hl, .kept rfl (by rintro index w ⟨⟩)⟩
  | enter captured args => exact ⟨l, hl, .kept rfl (by rintro index w ⟨⟩)⟩
  | _ => exact hunused (fun v hv => by cases hv) rfl (by rintro index w ⟨⟩)

theorem appendCount_cons (id : NodeId) (op : Operation) (ops : List Operation) :
    appendCount id (op :: ops) = appendCount id ops + if op.appendsTo id then 1 else 0 :=
  List.countP_cons

namespace ListStep

theorem size_eq (hstep : ListStep h h' id l op l') :
    l'.items.size = l.items.size + if op.appendsTo id then 1 else 0 := by
  cases hstep with
  | appended copy => simp [Operation.appendsTo, ListNode.push, Heap.items_grown]
  | replaced inside copy => simp [Operation.appendsTo, ListNode.replace]
  | kept noAppend outside => simp [noAppend]

theorem capacity_eq (hstep : ListStep h h' id l op l') :
    l'.capacity = if op.appendsTo id then grownCapacity l.capacity l.items.size
      else l.capacity := by
  cases hstep with
  | appended copy => simp [Operation.appendsTo, ListNode.push, ListNode.capacity_grown]
  | replaced inside copy => simp [Operation.appendsTo, ListNode.replace]
  | kept noAppend outside => simp [noAppend]

/-- An item stays until it is replaced. -/
theorem item_kept (hstep : ListStep h h' id l op l') (hitem : l.items[index]? = some u)
    (hno : ∀ v, op ≠ .replaceItem id index v) : l'.items[index]? = some u := by
  obtain ⟨hlt, -⟩ := Array.getElem?_eq_some_iff.mp hitem
  cases hstep with
  | appended copy =>
    rw [ListNode.push, Heap.items_grown, Array.getElem?_push, if_neg (Nat.ne_of_lt hlt)]
    exact hitem
  | @replaced index' v w inside copy =>
    have hne : index' ≠ index := by
      rintro rfl
      exact hno v rfl
    rw [ListNode.replace, Array.getElem?_setIfInBounds, if_neg hne]
    exact hitem
  | kept noAppend outside => exact hitem

end ListStep

/-! ## Runs -/

/-- **A list after any run:** its length and its room follow from the number of appends, and an
    item stays until it is replaced. -/
theorem Run.list_grown (hrun : Run s ops s') (hs : s.Sound) (hl : s.heap.list? id = some l) :
    ∃ l', s'.heap.list? id = some l' ∧
      l'.items.size = l.items.size + appendCount id ops ∧
      l'.capacity = capacityAfter l.capacity l.items.size (appendCount id ops) ∧
      ∀ (index : Nat) u, l.items[index]? = some u → ¬Replaces id index ops →
        l'.items[index]? = some u := by
  induction hrun generalizing l with
  | done s => exact ⟨l, hl, rfl, rfl, fun index u hu _ => hu⟩
  | @step s s' op ops allowed _ ih =>
    obtain ⟨l₁, hl₁, hstep⟩ := Session.listStep_perform hs allowed hl
    obtain ⟨l', hl', hsize, hcapacity, hkept⟩ := ih (Session.Change.perform hs allowed).sound hl₁
    -- The room is counted from the front of the run, as `capacityAfter` counts it.
    rw [hstep.size_eq] at hsize hcapacity
    rw [hstep.capacity_eq] at hcapacity
    refine ⟨l', hl', ?_, ?_, ?_⟩
    · rw [hsize, appendCount_cons]
      omega
    · rw [hcapacity, appendCount_cons]
      cases op.appendsTo id <;> rfl
    · intro index u hu hno
      refine hkept index u (hstep.item_kept hu ?_) ?_
      · rintro v rfl
        exact hno ⟨v, List.mem_cons_self⟩
      · rintro ⟨v, hv⟩
        exact hno ⟨v, List.mem_cons_of_mem _ hv⟩

/-- A run passes through the session before each of its operations. -/
theorem Run.split (hrun : Run s (before ++ op :: after) s') :
    ∃ s₁, Run s before s₁ ∧ op.Allowed s₁ ∧ Run (s₁.perform op) after s' := by
  induction before generalizing s with
  | nil =>
    cases hrun with
    | step allowed rest => exact ⟨s, .done s, allowed, rest⟩
  | cons first before ih =>
    cases hrun with
    | step allowed rest =>
      obtain ⟨s₁, hbefore, hop, hafter⟩ := ih rest
      exact ⟨s₁, .step allowed hbefore, hop, hafter⟩

/-! ## Runs that change one list only -/

/-- **A run that changes one list only.** It may read everything and make new values. -/
def EditsOnly (id : NodeId) (ops : List Operation) : Prop :=
  ∀ op ∈ ops, ∀ v ∈ op.uses, v = .list id

theorem Heap.ChangeThrough.trans {h'' : Heap} (h₁ : ChangeThrough h h' v)
    (h₂ : ChangeThrough h' h'' v) : ChangeThrough h h'' v where
  change := h₁.change.trans h₂.change
  others := by
    intro n hn hne
    rw [h₂.others n (Nat.lt_of_lt_of_le hn h₁.change.size_le) hne, h₁.others n hn hne]

theorem Run.changeThrough (hrun : Run s ops s') (hs : s.Sound) (honly : EditsOnly id ops) :
    Heap.ChangeThrough s.heap s'.heap (.list id) := by
  induction hrun with
  | done s => exact .refl hs.heap _
  | @step s s' op ops allowed _ ih =>
    have hchange := Session.Change.perform hs allowed
    have hfirst : Heap.ChangeThrough s.heap (s.perform op).heap (.list id) := by
      refine ⟨hchange.onHeap, fun n hn hne => ?_⟩
      refine (s.heapStep_perform op).others hs.heap allowed hn fun v hv => ?_
      rw [honly op List.mem_cons_self v hv]
      exact hne
    exact hfirst.trans (ih hchange.sound fun op hop => honly op (List.mem_cons_of_mem _ hop))

theorem Heap.Sound.valid_item (hs : h.Sound) (hl : h.list? id = some l)
    (hitem : l.items[index]? = some u) : h.Valid u := by
  refine hs.stored id (.item index) u ?_
  rw [at?_of_node (list?_eq_some_iff.mp hl)]
  exact hitem

/-- **A copy in the list** stays there until it is replaced, and stays a copy. -/
theorem Run.copy_kept (hrun : Run s ops s') (hs : s.Sound) (honly : EditsOnly id ops)
    (hl : s.heap.list? id = some l) (hl' : s'.heap.list? id = some l')
    (hitem : l.items[index]? = some w) (hno : ¬Replaces id index ops)
    (hcopy : h.CopyOf v s.heap w) (hid : id < h.nodes.size) :
    l'.items[index]? = some w ∧ h.CopyOf v s'.heap w := by
  obtain ⟨l₁, hl₁, -, -, hkept⟩ := hrun.list_grown hs hl
  rw [hl'] at hl₁
  cases hl₁
  have hc := hrun.changeThrough hs honly
  have hw := hs.heap.valid_item hl hitem
  refine ⟨hkept index w hitem hno, hcopy.kept hs.heap hw hc.change.size_le fun n hn hlt => ?_⟩
  -- The list is older than the copy, so no node of the copy is the one that changes.
  refine hc.others n hlt fun heq => ?_
  obtain rfl : id = n := Option.some.inj heq
  exact Nat.not_le.mpr hid hn

end Steps

/-- **A list after a run that changes nothing else.** Each append adds one item and each finds
    room, the room is the least that is enough, and every item is accounted for: it is one from
    the start, or a copy of what was last put in its place. -/
structure ListEdited (s s' : Session) (id : NodeId) (ops : List Operation) (l l' : ListNode) :
    Prop where
  length : l'.items.size = l.items.size + appendCount id ops
  fits : l'.items.size ≤ l'.capacity
  room : 0 < appendCount id ops → IsLeastRoom (firstRoom l.capacity) l'.items.size l'.capacity
  sameRoom : appendCount id ops = 0 → l'.capacity = l.capacity
  kept : ∀ (index : Nat) u, l.items[index]? = some u → ¬Replaces id index ops →
    l'.items[index]? = some u ∧ s'.heap.view u = s.heap.view u
  appended : ∀ before v after, ops = before ++ .append id v :: after → ∃ s₁ l₁,
    Run s before s₁ ∧ s₁.heap.list? id = some l₁ ∧
      l₁.items.size = l.items.size + appendCount id before ∧
      l₁.grown.items.size < l₁.grown.capacity ∧
      (¬Replaces id l₁.items.size after → ∃ w,
        l'.items[l₁.items.size]? = some w ∧ s₁.heap.AppendedCopy id v s'.heap w)
  replaced : ∀ before index v after, ops = before ++ .replaceItem id index v :: after →
    ∃ s₁ l₁, Run s before s₁ ∧ s₁.heap.list? id = some l₁ ∧
      (index < l₁.items.size → ¬Replaces id index after → ∃ w,
        l'.items[index]? = some w ∧ s₁.heap.CopyOf v s'.heap w)

section Edits

variable {s s' : Session} {ops : List Operation} {id : NodeId} {l l' : ListNode} {v : Value}
  {index : Nat}

/-- **What was appended** stands where the list ended, until it is replaced. -/
theorem Run.append_kept (hrun : Run (s.perform (.append id v)) ops s') (hs : s.Sound)
    (hop : (Operation.append id v).Allowed s) (honly : EditsOnly id ops)
    (hl : s.heap.list? id = some l) (hl' : s'.heap.list? id = some l')
    (hno : ¬Replaces id l.items.size ops) :
    ∃ w, l'.items[l.items.size]? = some w ∧ s.heap.AppendedCopy id v s'.heap w := by
  have hs₁ := (Session.Change.perform hs hop).sound
  have hold := Heap.list?_eq_some_iff.mp hl
  obtain ⟨l₁, hl₁, hstep⟩ := Session.listStep_perform hs hop hl
  cases hstep with
  | @appended v w copy =>
    have hitem : (l.grown.push w).items[l.items.size]? = some w := by
      rw [ListNode.push, Heap.items_grown]
      exact Array.getElem?_push_size
    have hid : id < (s.heap.modifyList id .grown).nodes.size := by
      rw [Heap.modifyList_of_list hold, Heap.size_put]
      exact Heap.lt_size_of_getElem? hold
    have hv : s.heap.Valid v := hop v (List.mem_cons_of_mem _ List.mem_cons_self)
    obtain ⟨hthere, hcopy⟩ := hrun.copy_kept hs₁ honly hl₁ hl' hitem hno copy hid
    exact ⟨w, hthere, hcopy.appended hs.heap hv hl⟩
  | kept noAppend outside => exact absurd noAppend (by simp [Operation.appendsTo])

/-- **What was put in a place** stays there until it is replaced again. -/
theorem Run.replaceItem_kept (hrun : Run (s.perform (.replaceItem id index v)) ops s')
    (hs : s.Sound) (hop : (Operation.replaceItem id index v).Allowed s)
    (honly : EditsOnly id ops) (hl : s.heap.list? id = some l)
    (hl' : s'.heap.list? id = some l') (hinside : index < l.items.size)
    (hno : ¬Replaces id index ops) :
    ∃ w, l'.items[index]? = some w ∧ s.heap.CopyOf v s'.heap w := by
  have hs₁ := (Session.Change.perform hs hop).sound
  have hold := Heap.list?_eq_some_iff.mp hl
  obtain ⟨l₁, hl₁, hstep⟩ := Session.listStep_perform hs hop hl
  cases hstep with
  | @replaced index v w inside copy =>
    have hitem : (l.replace index w).items[index]? = some w := by
      rw [ListNode.replace, Array.getElem?_setIfInBounds, if_pos rfl, if_pos hinside]
    have hid := Heap.lt_size_of_getElem? hold
    exact ⟨w, hrun.copy_kept hs₁ honly hl₁ hl' hitem hno copy hid⟩
  | kept noAppend outside => exact absurd (outside index v rfl) (Nat.not_le.mpr hinside)

/-- An item from the start holds what it held. -/
theorem Run.view_item (hrun : Run s ops s') (hs : s.Sound) (honly : EditsOnly id ops)
    (hl : s.heap.list? id = some l) {u : Value} (hitem : l.items[index]? = some u) :
    s'.heap.view u = s.heap.view u := by
  have hview := (hrun.changeThrough hs honly).view_item hs.heap hl index
  rwa [Heap.item_of_list hl, hitem, Option.getD_some] at hview

end Edits

/-- **Appending to a list.** Take any list of a machine, however it was made, and any run that
    changes no other container: appends to the list and replacements of its items, in any order
    and number, of any values, and whatever is read or made in between. The list has one more
    item for each append, its room is the least doubling of the room it had in which they fit,
    and no append finds it full once it has made room. Items that are not replaced stay and hold
    what they held. Where something was appended there is a copy of it, as it was when the list
    had made room for it, also if it was the list itself. -/
theorem appends_grow_list {runtimeId name : Bytes} {writable : Bool} {s s' : Session}
    {earlier ops : List Operation} {id : NodeId} {l : ListNode}
    (hearlier : Run (.new runtimeId name writable) earlier s) (hl : s.heap.list? id = some l)
    (hrun : Run s ops s') (honly : EditsOnly id ops) :
    ∃ l', s'.heap.list? id = some l' ∧ ListEdited s s' id ops l l' := by
  have hs : s.Sound := hearlier.sound (Session.sound_new runtimeId name writable)
  have hroomy := hearlier.everySize Sizes.lasting_hasRoom Heap.every_empty
  have hfits : l.items.size ≤ l.capacity := hroomy.size_le_capacity hl
  obtain ⟨l', hl', hsize, hcapacity, hkept⟩ := hrun.list_grown hs hl
  refine ⟨l', hl', ?_⟩
  constructor
  case length => exact hsize
  case fits =>
    rw [hsize, hcapacity]
    exact le_capacityAfter hfits _
  case room =>
    intro hsome
    rw [hsize, hcapacity]
    exact isLeastRoom_capacityAfter hfits hsome
  case sameRoom =>
    intro hnone
    rw [hcapacity, hnone]
    rfl
  case kept =>
    intro index u hu hno
    exact ⟨hkept index u hu hno, hrun.view_item hs honly hl hu⟩
  case appended =>
    rintro before v after rfl
    obtain ⟨s₁, hbefore, hop, hafter⟩ := hrun.split
    obtain ⟨l₁, hl₁, hsize₁, -, -⟩ := hbefore.list_grown hs hl
    have hfits₁ := (hbefore.everySize Sizes.lasting_hasRoom hroomy).size_le_capacity hl₁
    refine ⟨s₁, l₁, hbefore, hl₁, hsize₁, ListNode.lt_capacity_grown hfits₁, ?_⟩
    refine hafter.append_kept (hbefore.sound hs) hop ?_ hl₁ hl'
    exact fun op hmem => honly op (by simp [hmem])
  case replaced =>
    rintro before index v after rfl
    obtain ⟨s₁, hbefore, hop, hafter⟩ := hrun.split
    obtain ⟨l₁, hl₁, -, -, -⟩ := hbefore.list_grown hs hl
    refine ⟨s₁, l₁, hbefore, hl₁, ?_⟩
    refine hafter.replaceItem_kept (hbefore.sound hs) hop ?_ hl₁ hl'
    exact fun op hmem => honly op (by simp [hmem])

/-- A list with one item and no room to spare. It is appended to itself, put in its own first
    place, and given one more item: it then has three items and room for four. The appended copy
    has room for two, as the list had when it was copied. -/
theorem full_list_appended_to_itself :
    ∃ s s' l l', Run (.new [] [] true) [.build (.list [.boolean true])] s ∧
      s.heap.list? 0 = some l ∧ l.capacity = 1 ∧
      Run s [.append 0 (.list 0), .replaceItem 0 0 (.list 0), .append 0 .nil] s' ∧
      s'.heap.list? 0 = some l' ∧
      ListEdited s s' 0 [.append 0 (.list 0), .replaceItem 0 0 (.list 0), .append 0 .nil] l l' ∧
      l'.items.size = 3 ∧ IsLeastRoom 1 3 l'.capacity ∧
      s'.heap.item 0 1 = .list 1 ∧ (s'.heap.list? 1).map (·.capacity) = some 2 ∧
      (s'.heap.view (.list 0)).text = .ok (utf8 "[[true, [true]], [true], nil]") := by
  let s : Session := (Session.new [] [] true).perform (.build (.list [.boolean true]))
  let ops : List Operation := [.append 0 (.list 0), .replaceItem 0 0 (.list 0), .append 0 .nil]
  have hearlier : Run (.new [] [] true) [.build (.list [.boolean true])] s := by
    refine .single fun v hv => ?_
    rw [List.mem_singleton.mp hv]
    exact Heap.valid_of_node?_eq_none rfl
  have hl : s.heap.list? 0 = some (.of 1 #[.boolean true]) := rfl
  have hs : s.Sound := hearlier.sound (Session.sound_new [] [] true)
  have hlist : s.heap.Valid (.list 0) := by
    rintro id ⟨⟩
    exact ⟨_, rfl, trivial⟩
  have hboth : ∀ {h : Heap} {v w : Value}, h.Valid v → h.Valid w → ∀ u ∈ [v, w], h.Valid u :=
    fun hv hw => List.forall_mem_cons.mpr ⟨hv, List.forall_mem_singleton.mpr hw⟩
  have hop₁ : (Operation.append 0 (.list 0)).Allowed s := hboth hlist hlist
  have hc₁ := Session.Change.perform hs hop₁
  have hlist₁ := hc₁.later.valid hlist
  have hop₂ : (Operation.replaceItem 0 0 (.list 0)).Allowed _ := hboth hlist₁ hlist₁
  have hc₂ := Session.Change.perform hc₁.sound hop₂
  have hop₃ : (Operation.append 0 .nil).Allowed _ :=
    hboth (hc₂.later.valid hlist₁) Heap.valid_nil
  have hrun : Run s ops _ := .step hop₁ (.step hop₂ (.step hop₃ (.done _)))
  have honly : EditsOnly 0 ops := by
    intro op hop v hv
    simp only [ops, List.mem_cons, List.not_mem_nil, or_false] at hop
    rcases hop with rfl | rfl | rfl <;> exact List.mem_singleton.mp hv
  obtain ⟨l', hl', hedited⟩ := appends_grow_list hearlier hl hrun honly
  have hlength : l'.items.size = 3 := hedited.length
  have hroom := hedited.room (by decide)
  rw [hlength] at hroom
  refine ⟨s, _, _, l', hearlier, hl, rfl, hrun, hl', hedited, hlength, hroom, ?_, ?_, ?_⟩
  · decide +kernel
  · decide +kernel
  · decide +kernel

end ValueRuntime
