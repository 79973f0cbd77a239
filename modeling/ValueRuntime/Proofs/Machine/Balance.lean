import ValueRuntime.Proofs.Codec.Decoded
import ValueRuntime.Proofs.Machine.Evaluation

/-! # Balance in runs

    A run keeps all objects balanced exactly as long as it inserts no object into itself. An
    object that is out of balance stays so. Until then, whatever is read and whatever is
    evaluated, no value is missing.
-/

namespace ValueRuntime

/-! ## New values -/

/-- **A condition that new containers meet:** every list that has room for its items, and every
    object with one pair. Scalars meet it too. -/
structure Datum.MetByNew (p : Datum → Bool) : Prop where
  scalar : ∀ d : Datum, d.kind ≠ .list → d.kind ≠ .object → p d = true
  list : ∀ {capacity items}, items.length ≤ capacity → p (.list capacity items) = true
  pair : ∀ key value, p (.object defaultCapacity [key] [value]) = true

section New

variable {p : Datum → Bool}

/-- A condition on everything in a range. -/
theorem Datum.every_range (hp : MetByNew p) (start stop step : Datum) :
    (Datum.range start stop step).every p = true := by
  have hnil : Datum.nil.every p = true := hp.scalar _ (by decide) (by decide)
  unfold Datum.range
  dsimp only
  split
  · split
    · exact hnil
    · split
      · rw [every_list_iff]
        exact ⟨hp.list (Nat.zero_le _), fun d hd => by cases hd⟩
      · rw [every_list_iff, List.forall_mem_map]
        refine ⟨hp.list ?_, fun x _ => hp.scalar _ (by simp [Datum.kind]) (by simp [Datum.kind])⟩
        rw [List.length_map]
        exact le_capacityAfter_default _
  · exact hnil

/-- A condition on everything in a wrapped datum. An object that wraps has one pair. -/
theorem Datum.every_wrapped (hp : MetByNew p) (wrapping : Wrapping) (count : Nat) {d : Datum}
    (hd : d.every p = true) : (Nat.repeat wrapping.around count d).every p = true := by
  induction count with
  | zero => exact hd
  | succ count ih =>
    show (wrapping.around (Nat.repeat wrapping.around count d)).every p = true
    have hkey : (Datum.string (utf8 "k")).every p = true :=
      hp.scalar _ (by simp [Datum.kind]) (by simp [Datum.kind])
    have hvalue : Datum.nil.every p = true := hp.scalar _ (by decide) (by decide)
    cases wrapping with
    | item =>
      rw [Wrapping.around, every_list_iff, List.forall_mem_singleton]
      exact ⟨hp.list (Nat.le_refl 1), ih⟩
    | member =>
      rw [Wrapping.around, every_object_iff, List.forall_mem_singleton, List.forall_mem_singleton]
      exact ⟨hp.pair _ _, hkey, ih⟩
    | key =>
      rw [Wrapping.around, every_object_iff, List.forall_mem_singleton, List.forall_mem_singleton]
      exact ⟨hp.pair _ _, ih, hvalue⟩

/-- **What a new value is made of** meets a condition if everything that it is made from does:
    the values that are read, the keys of objects, and what bytes encode. -/
theorem Contents.every_datum {h : Heap} (hp : Datum.MetByNew p)
    (hdecoded : ∀ input d, Codec.decode input = .ok d → d.every p = true) (contents : Contents)
    (hkeys : ∀ id o, h.object? id = some o →
      (Datum.list o.capacity (o.keys.toList.map h.view)).every p = true)
    (hhandles : ∀ v ∈ contents.handles, (h.view v).every p = true) :
    (contents.datum h).every p = true := by
  cases contents with
  | value v => exact hhandles v List.mem_cons_self
  | list values =>
    rw [Contents.datum, Datum.every_list_iff, List.forall_mem_map]
    refine ⟨hp.list ?_, hhandles⟩
    rw [List.length_map]
    cases values with
    | nil => exact Nat.zero_le _
    | cons v rest => exact Nat.le_refl _
  | keys id =>
    rw [Contents.datum]
    split
    · next o ho => exact hkeys id o ho
    · rw [Datum.every_list_iff]
      exact ⟨hp.list (Nat.zero_le _), fun d hd => by cases hd⟩
  | wrapped wrapping count v =>
    exact Datum.every_wrapped hp wrapping count (hhandles v List.mem_cons_self)
  | range start stop step => exact Datum.every_range hp _ _ _
  | decoded input =>
    rw [Contents.datum]
    cases hdecode : Codec.decode input with
    | error e => exact hp.scalar .nil (by decide) (by decide)
    | ok d => exact hdecoded input d hdecode

end New

theorem Contents.balanced_datum {h : Heap} (hs : h.Sound) (hb : h.Balanced)
    (contents : Contents) (hvalid : ∀ v ∈ contents.handles, h.Valid v) :
    (contents.datum h).isBalanced = true := by
  refine contents.every_datum ⟨?_, fun _ => rfl, fun _ _ => rfl⟩ ?_ ?_
    fun v hv => hb.view hs (hvalid v hv)
  · intro d _ hd
    cases d <;> first | rfl | exact absurd rfl hd
  · intro input d hdecode
    exact (Codec.decoded_of_decode hdecode).isBalanced
  · intro id o ho
    rw [← Datum.isBalanced, Datum.isBalanced_list_iff, List.forall_mem_map]
    exact fun k hk => hb.view hs (hs.valid_of_mem_keys ho hk)

/-! ## Operations and runs -/

variable {s s' : Session} {ops : List Operation}

theorem balanced_store_session_iff (hs : s.Sound) {id : NodeId} {key v : Value}
    (hop : (Operation.store id key v).Allowed s) :
    (s.perform (.store id key v)).heap.Balanced ↔
      s.heap.Balanced ∧ ¬s.heap.SelfInsertion id key v := by
  simp only [Session.perform]
  split
  · next h hst =>
    exact Heap.balanced_store_iff hs.heap (hop key (by simp [Operation.handles]))
      (hop v (by simp [Operation.handles])) hst
  · next fault hst =>
    have hno : ¬s.heap.SelfInsertion id key v := by
      rintro ⟨o, ho, hnone, -⟩
      rcases Heap.store_error_cases hst with ⟨hno, -⟩ | ⟨o', index, ho', hindex, -, -⟩
      · rw [ho] at hno
        cases hno
      · rw [ho] at ho'
        cases ho'
        rw [hnone] at hindex
        cases hindex
    exact (and_iff_left hno).symm

/-- An operation without a self-insertion that keeps balance and does not restore it. -/
theorem balanced_plain_iff {h : Heap} (hiff : h.Balanced ↔ s.heap.Balanced) :
    h.Balanced ↔ s.heap.Balanced ∧ ¬False := by
  rw [hiff]
  exact (and_iff_left id).symm

/-- **What one operation does to balance.** -/
theorem balanced_perform_iff (hs : s.Sound) {op : Operation} (hop : op.Allowed s) :
    (s.perform op).heap.Balanced ↔ s.heap.Balanced ∧ ¬op.SelfInserts s := by
  cases op with
  | build contents =>
    refine balanced_plain_iff ((Heap.balanced_alloc_iff _).trans ?_)
    exact and_iff_left_of_imp fun hb => contents.balanced_datum hs.heap hb hop
  | blank kind =>
    refine balanced_plain_iff (Heap.balanced_add_iff ?_)
    cases kind with
    | list => trivial
    | object => rfl
    | hollow => trivial
  | objectOf keys values =>
    obtain ⟨v, h, hob, hiff⟩ := Heap.objectOf_balanced hs.heap
      (fun v hv => hop v (List.mem_append_left _ hv))
      (fun v hv => hop v (List.mem_append_right _ hv))
    have hperform : s.perform (.objectOf keys values) = s.withHeap h := by
      simp only [Session.perform, hob]
    rw [hperform]
    exact balanced_plain_iff hiff
  | append id v =>
    exact balanced_plain_iff (Heap.balanced_append_iff hs.heap (hop _ List.mem_cons_self)
      (hop v (by simp [Operation.handles])))
  | replaceItem id index v =>
    exact balanced_plain_iff (Heap.balanced_replaceItem_iff hs.heap id index
      (hop v (by simp [Operation.handles])))
  | store id key v => exact balanced_store_session_iff hs hop
  | newCell v =>
    exact balanced_plain_iff (Heap.balanced_copy_iff hs.heap (hop v List.mem_cons_self))
  | writeCell cell v =>
    cases cell with
    | none => exact balanced_plain_iff Iff.rfl
    | some id =>
      exact balanced_plain_iff (Heap.balanced_copy_iff hs.heap (hop v List.mem_cons_self))
  | globalCell name =>
    have hheap : (s.perform (.globalCell name)).heap = s.heap := Session.heap_globalCell s name
    rw [hheap]
    exact balanced_plain_iff Iff.rfl
  | newFunction entry captured => exact balanced_plain_iff Iff.rfl
  | print v =>
    have hheap : (s.perform (.print v)).heap = s.heap := (Session.after_print s v).1
    rw [hheap]
    exact balanced_plain_iff Iff.rfl
  | bind name cell => exact balanced_plain_iff Iff.rfl
  | hold name v => exact balanced_plain_iff Iff.rfl
  | iterate name v =>
    exact balanced_plain_iff (Heap.balanced_copy_iff hs.heap (hop v List.mem_cons_self))
  | advance name => exact balanced_plain_iff Iff.rfl
  | enter captured args => exact balanced_plain_iff Iff.rfl
  | leave =>
    have hheap : (s.perform .leave).heap = s.heap := by
      simp only [Session.perform]
      split <;> rfl
    rw [hheap]
    exact balanced_plain_iff Iff.rfl

/-- **What a run does to balance.** -/
theorem Run.balanced_iff (hrun : Run s ops s') (hs : s.Sound) :
    s'.heap.Balanced ↔ s.heap.Balanced ∧ ¬SelfInserting s ops := by
  induction hrun with
  | done s => exact balanced_plain_iff Iff.rfl
  | @step s s' op ops allowed _ ih =>
    have hstep := Session.Change.perform hs allowed
    rw [ih hstep.sound, balanced_perform_iff hs allowed, SelfInserting, not_or, and_assoc]

/-! ## Reading -/

/-- **No value is missing:** nothing that looks up the value of a key by its place looks beyond
    the values. An evaluation does so only after it has inserted an object into itself, and
    loading an image never inserts one. -/
structure Session.NoneMissing (s : Session) : Prop where
  lookup : ∀ id key index length, s.heap.lookup id key ≠ .error (.indexOutOfRange index length)
  text : ∀ v index length, s.heap.Valid v →
    (s.heap.view v).text ≠ .error (.indexOutOfRange index length)
  encode : ∀ v index length, s.heap.Valid v →
    Codec.encode (s.heap.view v) ≠ .error (.fault (.indexOutOfRange index length))
  eval : ∀ fuel e, ∃ more, Run s more (s.after (Action.eval fuel e)) ∧
    ∀ index length, s.result (Action.eval fuel e)
      = .error (.fault (.indexOutOfRange index length)) → SelfInserting s more
  load : ∀ image count m, Image.loadGlobals image s.machine = .ok (count, m) →
    ∃ more, Run s more ⟨m, s.callers⟩ ∧ ¬SelfInserting s more

theorem Session.Sound.noneMissing (hs : s.Sound) (hb : s.heap.Balanced) : s.NoneMissing where
  lookup := by
    intro id key index length hf
    exact Heap.not_balanced_of_lookup hf hb
  text := by
    intro v index length hv
    exact Datum.text_ne_index (hb.view hs.heap hv) index length
  encode := by
    intro v index length hv
    exact Codec.encode_ne_index (hb.view hs.heap hv) index length
  eval := by
    intro fuel e
    have htraced := traced_eval fuel e s hs
    obtain ⟨more, hrun⟩ := htraced.run
    refine ⟨more, hrun, ?_⟩
    intro index length hf
    have hbroken := htraced.index index length hf
    rw [hrun.balanced_iff hs] at hbroken
    exact Classical.not_not.mp fun hno => hbroken ⟨hb, hno⟩
  load := by
    intro image count m hload
    obtain ⟨more, hrun, huses⟩ := run_loadGlobals hs hload
    refine ⟨more, hrun, not_selfInserting_of_forall ?_ s⟩
    exact fun op hop => Operation.not_selfInserts_of_uses (huses op hop)

/-- What values reach is the whole heap: every object is reached by the value for it. -/
theorem Heap.balanced_iff_reached {h : Heap} :
    h.Balanced ↔ ∀ v n o, h.Valid v → h.Reaches v n → h.object? n = some o →
      o.keys.size = o.values.size := by
  constructor
  · intro hb v n o _ _ ho
    exact hb n _ (object?_eq_some_iff.mp ho)
  · intro hall id node hnode
    cases node with
    | list l => trivial
    | hollow => trivial
    | object o =>
      refine hall (.object id) id o ?_ (reaches_of_node? rfl) (object?_eq_some_iff.mpr hnode)
      intro n hn
      cases hn
      exact ⟨_, hnode, trivial⟩

/-- **Objects have as many values as keys in exactly the runs without a self-insertion**, and
    in those no value is missing. -/
theorem balanced_iff_no_self_insertion {id name : Bytes} {writable : Bool}
    {ops : List Operation} {s : Session} (hrun : Run (.new id name writable) ops s) :
    ((∀ v n o, s.heap.Valid v → s.heap.Reaches v n → s.heap.object? n = some o →
        o.keys.size = o.values.size) ↔ ¬SelfInserting (.new id name writable) ops) ∧
      (¬SelfInserting (.new id name writable) ops → s.NoneMissing) := by
  have hnew := Session.sound_new id name writable
  have hs := hrun.sound hnew
  have hbalanced : s.heap.Balanced ↔ ¬SelfInserting (.new id name writable) ops := by
    rw [hrun.balanced_iff hnew]
    exact and_iff_right Heap.balanced_empty
  refine ⟨Heap.balanced_iff_reached.symm.trans hbalanced, ?_⟩
  intro hno
  exact hs.noneMissing (hbalanced.mpr hno)

/-- A run that stores an empty object under the key `k` of itself. -/
theorem self_insertion_unbalances :
    ∃ s, Run (.new [] [] true) [.blank .object, .store 0 (.string [0x6b]) (.object 0)] s ∧
      ¬∀ v n o, s.heap.Valid v → s.heap.Reaches v n → s.heap.object? n = some o →
        o.keys.size = o.values.size := by
  have hblank : (Operation.blank .object).Allowed (.new [] [] true) := fun v hv => by cases hv
  have hstore : (Operation.store 0 (.string [0x6b]) (.object 0)).Allowed
      ((Session.new [] [] true).perform (.blank .object)) := by
    intro v hv id hid
    simp only [Operation.handles, List.mem_cons, List.not_mem_nil, or_false] at hv
    rcases hv with rfl | rfl | rfl
    · cases hid
      exact ⟨.object .empty, rfl, trivial⟩
    · cases hid
    · cases hid
      exact ⟨.object .empty, rfl, trivial⟩
  have hrun := Run.step hblank (Run.single hstore)
  refine ⟨_, hrun, ?_⟩
  rw [(balanced_iff_no_self_insertion hrun).1]
  intro hno
  exact hno (Or.inr (Or.inl ⟨.empty, rfl, rfl, Heap.reaches_of_node? rfl⟩))

/-- The text of an object that was stored under a new key of itself lacks a value. -/
theorem text_after_self_insertion_faults :
    (Session.new [] [] true).result (Action.eval 3 (.seq
      [.bind [0x6f] (.object []),
        .apply .store [.get (.ofLocal [0x6f]), .string [0x6b], .get (.ofLocal [0x6f])],
        .apply (.unary .toText) [.get (.ofLocal [0x6f])]]))
      = .error (.fault (.indexOutOfRange 0 0)) := by
  decide +kernel

end ValueRuntime
