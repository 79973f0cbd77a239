import ValueRuntime.Proofs.Datum.Equality
import ValueRuntime.Proofs.Heap.Contents

/-! # Copies

    A copy holds what its original holds, in new nodes. The one difference is an object that
    was never given contents: it reads as empty, and its copy is an empty object.
-/

namespace ValueRuntime

/-! ## Filled data -/

namespace Datum

mutual

/-- **A datum with its hollow objects filled:** an object without contents is an empty one. -/
def filled : Datum → Datum
  | .list capacity items => .list capacity (filledAll items)
  | .object capacity keys values => .object capacity (filledAll keys) (filledAll values)
  | .hollow => .object defaultCapacity [] []
  | d => d

/-- Several data with their hollow objects filled. -/
def filledAll : List Datum → List Datum
  | [] => []
  | d :: rest => filled d :: filledAll rest

end

theorem filledAll_eq_map (ds : List Datum) : filledAll ds = ds.map filled := by
  induction ds with
  | nil => rfl
  | cons d rest ih => rw [filledAll, ih, List.map_cons]

theorem isWhole_filled (d : Datum) : d.filled.isWhole = true := by
  induction d using treeInduction with
  | list capacity items ih =>
    unfold isWhole at ih ⊢
    rw [filled, every_list_iff, filledAll_eq_map, List.forall_mem_map]
    exact ⟨rfl, ih⟩
  | object capacity keys values ihk ihv =>
    unfold isWhole at ihk ihv ⊢
    rw [filled, every_object_iff, filledAll_eq_map, filledAll_eq_map, List.forall_mem_map,
      List.forall_mem_map]
    exact ⟨rfl, ihk, ihv⟩
  | _ => rfl

/-- A whole datum has nothing to fill. -/
theorem filled_of_isWhole {d : Datum} (hd : d.isWhole = true) : d.filled = d := by
  have hsame : ∀ {ds : List Datum}, (∀ d ∈ ds, d.filled = d) → filledAll ds = ds := by
    intro ds hds
    rw [filledAll_eq_map, List.map_congr_left hds, List.map_id']
  induction d using treeInduction with
  | list capacity items ih =>
    obtain ⟨-, hitems⟩ := (every_list_iff _ _ _).mp hd
    rw [filled, hsame fun d hmem => ih d hmem (hitems d hmem)]
  | object capacity keys values ihk ihv =>
    obtain ⟨-, hkeys, hvalues⟩ := (every_object_iff _ _ _ _).mp hd
    rw [filled, hsame fun d hmem => ihk d hmem (hkeys d hmem),
      hsame fun d hmem => ihv d hmem (hvalues d hmem)]
  | hollow => cases hd
  | _ => rfl

/-- Nothing is left to fill. -/
theorem map_filled_filled (ds : List Datum) : (ds.map filled).map filled = ds.map filled := by
  rw [List.map_map]
  exact List.map_congr_left fun d _ => filled_of_isWhole (isWhole_filled d)

theorem equalAll_filledAll {xs : List Datum}
    (hequal : ∀ x ∈ xs, ∀ y : Datum, x.filled.equal y = x.equal y) (ys : List Datum) :
    equalAll (filledAll xs) ys = equalAll xs ys := by
  induction xs generalizing ys with
  | nil => rfl
  | cons x rest ih =>
    cases ys with
    | nil => rfl
    | cons y more =>
      have hrest := ih (fun x hx => hequal x (List.mem_cons_of_mem _ hx)) more
      rw [filledAll, equalAll, equalAll, hequal x List.mem_cons_self, hrest]

/-- What a datum shows at a place. -/
def at? : Datum → Place → Option Datum
  | .list _ items, .item index => items[index]?
  | .object _ keys _, .key index => keys[index]?
  | .object _ _ values, .value index => values[index]?
  | _, _ => none

theorem at?_filled {d e : Datum} {p : Place} (he : d.at? p = some e) :
    d.filled.at? p = some e.filled := by
  cases d <;> cases p <;> simp_all [at?, filled, filledAll_eq_map]

/-- **Equality does not see whether an object was given contents.** -/
theorem equal_filled (a b : Datum) : a.filled.equal b = a.equal b := by
  induction a using treeInduction generalizing b with
  | list capacity items ih =>
    cases b with
    | list capacity' items' => exact equalAll_filledAll ih items'
    | _ => rfl
  | _ => cases b <;> rfl

end Datum

namespace Heap

variable {h h' : Heap} {v w : Value}

/-! ## Copies hold what was copied -/

mutual

/-- The nodes for a datum do not tell hollow objects from empty ones. -/
theorem layout_filled (base : NodeId) (d : Datum) : layout base d.filled = layout base d := by
  match d with
  | .nil => rfl
  | .boolean b => rfl
  | .number x => rfl
  | .string s => rfl
  | .function f => rfl
  | .hollow => rfl
  | .list capacity items =>
    have hitems := layoutAll_filledAll (base + 1) items
    simp only [Datum.filled, layout, hitems]
  | .object capacity keys values =>
    have hkeys := layoutAll_filledAll (base + 1) keys
    have hvalues := layoutAll_filledAll (layoutAll (base + 1) keys).next values
    simp only [Datum.filled, layout, hkeys, hvalues]

theorem layoutAll_filledAll (base : NodeId) (ds : List Datum) :
    layoutAll base (Datum.filledAll ds) = layoutAll base ds := by
  match ds with
  | [] => rfl
  | d :: rest =>
    have hfirst := layout_filled base d
    have hrest := layoutAll_filledAll (layout base d).next rest
    simp only [Datum.filledAll, layoutAll, hfirst, hrest]

end

/-- What was laid out is there, with an empty object for a hollow one. -/
theorem view_alloc_filled (hs : h.Sound) (d : Datum) :
    (h.alloc d).2.view (h.alloc d).1 = d.filled := by
  have hfilled : h.alloc d = h.alloc d.filled := by
    unfold alloc
    rw [layout_filled]
  rw [hfilled]
  exact view_alloc hs (Datum.isWhole_filled _)

/-- **A copy holds what its original holds.** -/
theorem view_copy (hs : h.Sound) (v : Value) :
    (h.copy v).2.view (h.copy v).1 = (h.view v).filled :=
  view_alloc_filled hs (h.view v)

/-- A copy is reached through new nodes only. The root of the copy is new, and edges lead to
    later nodes. -/
theorem le_of_reaches_copy (hs : h.Sound) {n : NodeId}
    (hn : (h.copy v).2.Reaches (h.copy v).1 n) : h.nodes.size ≤ n := by
  have hc := Change.copy hs v
  obtain ⟨root, hroot, hpath⟩ := hn
  have hnew : h.nodes.size ≤ root := hc.root_new root hroot
  have hlater : root ≤ n := hc.sound.le_of_path hpath
  exact Nat.le_trans hnew hlater

/-! ## Functions in copies -/

/-- The value at the end of a path of places, if the path can be followed. -/
def follow (h : Heap) : (path : List Place) → Value → Option Value
  | [], v => some v
  | p :: rest, v => v.node?.bind fun id => (h.at? id p).bind (h.follow rest)

theorem exists_of_forall₂ {α β : Type} {R : α → β → Prop} {xs : List α} {ys : List β}
    (hall : List.Forall₂ R xs ys) {i : Nat} {x : α} (hx : xs[i]? = some x) :
    ∃ y, ys[i]? = some y ∧ R x y := by
  obtain ⟨hi, rfl⟩ := List.getElem?_eq_some_iff.mp hx
  have hi' : i < ys.length := by
    rw [← hall.length_eq]
    exact hi
  exact ⟨ys[i], List.getElem?_eq_getElem hi', hall.get hi hi'⟩

/-- What is stored in a container shows at the same place of its contents. -/
theorem Unfolds.shows {d : Datum} (hv : h.Unfolds v d) {id : NodeId} {p : Place} {u : Value}
    (hid : v.node? = some id) (hu : h.at? id p = some u) :
    ∃ e, d.at? p = some e ∧ h.Unfolds u e := by
  cases hv with
  | list hnode hitems =>
    cases hid
    rw [at?_of_node hnode] at hu
    cases p with
    | item index => exact exists_of_forall₂ hitems (by simpa [Node.at?] using hu)
    | _ => cases hu
  | object hnode hkeys hvalues =>
    cases hid
    rw [at?_of_node hnode] at hu
    cases p with
    | item index => cases hu
    | key index => exact exists_of_forall₂ hkeys (by simpa [Node.at?] using hu)
    | value index => exact exists_of_forall₂ hvalues (by simpa [Node.at?] using hu)
  | hollow hnode =>
    cases hid
    rw [at?_of_node hnode] at hu
    cases p <;> cases hu
  | _ => cases hid

/-- What shows at a place of the contents is stored in the container. -/
theorem Unfolds.stored {d e : Datum} (hv : h.Unfolds v d) {p : Place} (he : d.at? p = some e) :
    ∃ id u, v.node? = some id ∧ h.at? id p = some u ∧ h.Unfolds u e := by
  cases hv with
  | @list id l items hnode hitems =>
    cases p with
    | item index =>
      obtain ⟨u, hu, hunfolds⟩ := exists_of_forall₂ hitems.flip he
      exact ⟨id, u, rfl, by rw [at?_of_node hnode]; simpa [Node.at?] using hu, hunfolds⟩
    | _ => cases he
  | @object id o keys values hnode hkeys hvalues =>
    cases p with
    | item index => cases he
    | key index =>
      obtain ⟨u, hu, hunfolds⟩ := exists_of_forall₂ hkeys.flip he
      exact ⟨id, u, rfl, by rw [at?_of_node hnode]; simpa [Node.at?] using hu, hunfolds⟩
    | value index =>
      obtain ⟨u, hu, hunfolds⟩ := exists_of_forall₂ hvalues.flip he
      exact ⟨id, u, rfl, by rw [at?_of_node hnode]; simpa [Node.at?] using hu, hunfolds⟩
  | _ => cases p <;> cases he

/-- Two values with the same contents have the same functions at the same places. -/
theorem Unfolds.follow_function {d : Datum} {path : List Place} {f : Option CallableId}
    (hv : h.Unfolds v d) (hw : h'.Unfolds w d.filled)
    (hpath : h.follow path v = some (.function f)) :
    h'.follow path w = some (.function f) := by
  induction path generalizing v w d with
  | nil =>
    obtain rfl : v = .function f := Option.some.inj hpath
    cases hv
    cases hw
    rfl
  | cons p rest ih =>
    obtain ⟨id, hid, hrest⟩ := Option.bind_eq_some_iff.mp hpath
    obtain ⟨u, hu, hend⟩ := Option.bind_eq_some_iff.mp hrest
    obtain ⟨e, he, hunfolds⟩ := hv.shows hid hu
    obtain ⟨id', u', hid', hu', hunfolds'⟩ := hw.stored (Datum.at?_filled he)
    have hinner := ih hunfolds hunfolds' hend
    simp only [follow, hid', hu', Option.bind_some, hinner]

/-- **A function in a value is the same function in its copy.** -/
theorem follow_copy (hs : h.Sound) (hv : h.Valid v) {path : List Place} {f : Option CallableId}
    (hpath : h.follow path v = some (.function f)) :
    (h.copy v).2.follow path (h.copy v).1 = some (.function f) := by
  have hc := Change.copy hs v
  have hcopy := hc.sound.unfolds_view hc.root_valid
  rw [view_copy hs] at hcopy
  exact (hs.unfolds_view hv).follow_function hcopy hpath

end Heap

/-! ## Equality of values -/

/-- **Equality is a partial equivalence on all values.** It is symmetric and transitive; a
    value equals itself exactly when, followed through the items of lists, it has neither "not
    a number" nor an object in it; and a copy equals the same values as its original. -/
theorem equality_partial_equivalence :
    (∀ a b : Datum, a.equal b = b.equal a) ∧
      (∀ a b c : Datum, a.equal b = true → b.equal c = true → a.equal c = true) ∧
      (∀ d : Datum, d.equal d = true ↔
        ∀ part, Datum.Element part d → part ≠ .number .nan ∧ part.kind ≠ .object) ∧
      ∀ (h : Heap) (v w : Value), h.Sound → h.Valid w →
        ((h.copy v).2.view (h.copy v).1).equal ((h.copy v).2.view w)
          = (h.view v).equal (h.view w) := by
  refine ⟨Datum.equal_comm, fun a b c => Datum.equal_trans, Datum.equal_self_iff, ?_⟩
  intro h v w hs hw
  have hother : (h.copy v).2.view w = h.view w := Heap.view_older hs (Heap.older_alloc h _) hw
  rw [Heap.view_copy hs, hother]
  exact Datum.equal_filled (h.view v) (h.view w)

/-- Lists of zeros are equal whatever the sign of the zeros and the room of the lists, and the
    copy of such a list equals the list. -/
theorem lists_of_zeros_equal :
    (Datum.list 4 [.number (.zero false)]).equal (.list 1 [.number (.zero true)]) = true ∧
      (Datum.list 1 [.number (.zero true)]).equal (.list 2 [.number (.zero false)]) = true ∧
      (Datum.list 4 [.number (.zero false)]).equal (.list 2 [.number (.zero false)]) = true ∧
      ∃ (h : Heap) (v : Value), h.Sound ∧ h.Valid v ∧ h.view v = .list 4 [.number (.zero false)] ∧
        ((h.copy v).2.view (h.copy v).1).equal ((h.copy v).2.view v) = true := by
  obtain ⟨-, htrans, -, hcopy⟩ := equality_partial_equivalence
  have hfirst : (Datum.list 4 [.number (.zero false)]).equal (.list 1 [.number (.zero true)])
      = true := by decide
  have hsecond : (Datum.list 1 [.number (.zero true)]).equal (.list 2 [.number (.zero false)])
      = true := by decide
  refine ⟨hfirst, hsecond, htrans _ _ _ hfirst hsecond, ?_⟩
  have hc := Heap.Change.alloc Heap.sound_empty (.list 4 [.number (.zero false)])
  have hview := Heap.view_alloc (d := .list 4 [.number (.zero false)]) Heap.sound_empty rfl
  refine ⟨_, _, hc.sound, hc.root_valid, hview, ?_⟩
  rw [hcopy _ _ _ hc.sound hc.root_valid, hview]
  decide

end ValueRuntime
