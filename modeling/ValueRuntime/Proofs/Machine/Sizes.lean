import ValueRuntime.Proofs.Machine.Balance

/-! # Sizes in runs

    A condition on the sizes of containers that lasts is kept by every run. What a run makes of
    nothing are lists with room for their items and objects that were filled pair by pair, and
    all else it copies.

    One such condition is that every value has a key. A self-insertion leaves an object with a
    key that has no value. The opposite never happens: in no run does an object have more values
    than keys. Whoever walks the keys of an object therefore meets all its values, and an encoder
    that comes to the end has seen everything.
-/

namespace ValueRuntime

/-! ## Runs -/

section Runs

variable {p : Sizes → Bool} {h h' : Heap} {s s' : Session} {op : Operation} {ops : List Operation}

theorem Datum.Decoded.everySize (hp : Sizes.Lasting p) {size levels : Nat} {d : Datum}
    (hd : Decoded size levels d) : d.everySize p = true := by
  refine hd.every ?_
  intro levels d hd
  cases hd with
  | list _ _ _ => exact hp.list (le_capacityAfter_default _)
  | @object _ entries _ hsizes _ _ _ =>
    show p (.object _ entries.keys.length entries.values.length) = true
    rw [← hsizes]
    exact hp.object _
  | _ => rfl

/-- **What a new value is made of** meets a condition that lasts. -/
theorem Contents.everySize_datum (hp : Sizes.Lasting p) (hall : h.EverySize p)
    (contents : Contents) : (contents.datum h).everySize p = true := by
  refine contents.every_datum ⟨?_, hp.list, fun _ _ => hp.object 1⟩ ?_ ?_ fun v _ => hall.view v
  · intro d hlist hobject
    cases d <;> first | rfl | exact absurd rfl hlist | exact absurd rfl hobject
  · intro input d hdecode
    exact (Codec.decoded_of_decode hdecode).everySize hp
  · intro id o ho
    refine (Datum.everySize_list_iff _ _).mpr ⟨?_, List.forall_mem_map.mpr fun k _ => hall.view k⟩
    rw [List.length_map, Array.length_toList]
    exact hp.keyList (hall id _ (Heap.object?_eq_some_iff.mp ho))

theorem Session.HeapStep.everySize (hstep : HeapStep h op h') (hp : Sizes.Lasting p)
    (hall : h.EverySize p) (hvalid : ∀ v ∈ op.handles, h.Valid v) : h'.EverySize p := by
  cases hstep with
  | same => exact hall
  | build contents => exact hall.alloc hp (contents.everySize_datum hp hall)
  | blank kind =>
    refine (Heap.every_add_iff ?_).mpr hall
    cases kind with
    | list => exact hp.list (Nat.le_refl 0)
    | object => exact hp.object 0
    | hollow => rfl
  | objectOf made => exact hall.objectOf hp made
  | append id v => exact hall.append hp (hvalid _ List.mem_cons_self) v
  | replaceItem id index v => exact hall.replaceItem hp id index v
  | store stored => exact hall.store hp stored
  | copy given => exact hall.copy hp _

/-- **A run keeps a condition that lasts.** -/
theorem Run.everySize (hrun : Run s ops s') (hp : Sizes.Lasting p) (hall : s.heap.EverySize p) :
    s'.heap.EverySize p := by
  induction hrun with
  | done s => exact hall
  | @step s s' op ops allowed _ ih => exact ih ((s.heapStep_perform op).everySize hp hall allowed)

end Runs

/-! ## Every value has a key -/

/-- **Covered:** an object has no more values than keys. -/
def Sizes.isCovered : Sizes → Bool
  | .list _ _ => true
  | .object _ keys values => decide (values ≤ keys)

/-- A new key comes before its value, so there is never a value too many. -/
theorem Sizes.lasting_isCovered : Lasting isCovered where
  list := fun _ => rfl
  object := fun count => decide_eq_true (Nat.le_refl count)
  keyList := fun _ => rfl
  item := fun _ => ⟨rfl, rfl⟩
  key := by
    intro capacity keys values hle
    replace hle : values ≤ keys := of_decide_eq_true hle
    exact ⟨decide_eq_true hle, decide_eq_true (by omega), decide_eq_true (by omega)⟩

namespace Datum

/-- **A covered datum:** no object in it has more values than keys. -/
def isCovered : Datum → Bool := everySize Sizes.isCovered

theorem isCovered_list_iff (capacity : Nat) (items : List Datum) :
    (Datum.list capacity items).isCovered = true ↔ ∀ d ∈ items, d.isCovered = true := by
  unfold isCovered
  rw [everySize_list_iff]
  exact and_iff_right rfl

theorem isCovered_object_iff (capacity : Nat) (keys values : List Datum) :
    (Datum.object capacity keys values).isCovered = true ↔
      values.length ≤ keys.length ∧ (∀ d ∈ keys, d.isCovered = true) ∧
        ∀ d ∈ values, d.isCovered = true := by
  unfold isCovered
  rw [everySize_object_iff, Sizes.isCovered, decide_eq_true_iff]

theorem isCovered_of_isBalanced {d : Datum} (hb : d.isBalanced = true) : d.isCovered = true := by
  induction d using treeInduction with
  | list capacity items ih =>
    rw [isBalanced_list_iff] at hb
    rw [isCovered_list_iff]
    exact fun d hd => ih d hd (hb d hd)
  | object capacity keys values ihk ihv =>
    obtain ⟨hsizes, hkeys, hvalues⟩ := (isBalanced_object_iff _ _ _).mp hb
    rw [isCovered_object_iff]
    exact ⟨by omega, fun d hd => ihk d hd (hkeys d hd), fun d hd => ihv d hd (hvalues d hd)⟩
  | _ => rfl

end Datum

/-- **In no run does an object have more values than keys,** so whatever is read is covered. -/
theorem Run.isCovered_view {runtimeId name : Bytes} {writable : Bool} {s : Session}
    {ops : List Operation} (hrun : Run (.new runtimeId name writable) ops s) (v : Value) :
    (s.heap.view v).isCovered = true :=
  (hrun.everySize Sizes.lasting_isCovered Heap.every_empty).view v

end ValueRuntime
