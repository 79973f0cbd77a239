import Mathlib.Data.List.GetD
import Mathlib.Data.List.Induction
import Mathlib.Data.Nat.Find
import ValueRuntime.Proofs.Codec.Data
import ValueRuntime.Proofs.Heap.Lookup

/-! # Objects built from keys and values

    An object is built by storing pairs in order. Of several equal keys the first one gives the
    place and the representation, and the last one gives the value. Stated over places in the
    sequence of keys:

    * the object has the keys at the *first places*, those that no key before equals;
    * the value of such a key stands at its *last place*, the last one with an equal key.

    The argument runs over data first, where storing one more pair extends the sequence at its
    end, and then the heap is shown to follow it store by store.
-/

namespace ValueRuntime

namespace Datum

/-- A datum that does not equal itself equals nothing. -/
theorem not_equal_of_not_equal_self {d : Datum} (hself : d.equal d = false) (e : Datum) :
    d.equal e = false := by
  cases hde : d.equal e with
  | false => rfl
  | true =>
    have hed : e.equal d = true := by
      rw [equal_comm]
      exact hde
    rw [equal_trans hde hed] at hself
    cases hself

/-! ## First and last places -/

/-- The places of those keys that no key before equals. -/
def firstPlaces (keys : List Datum) : List Nat :=
  (List.range keys.length).filter fun i =>
    (List.range i).all fun j => !(keys.getD j .nil).equal (keys.getD i .nil)

/-- The last place with a key that equals the one at a given place, which is the given place
    itself if the key equals none. -/
def lastPlace (keys : List Datum) (i : Nat) : Nat :=
  ((List.range keys.length).filter fun j =>
    (keys.getD i .nil).equal (keys.getD j .nil)).getLast?.getD i

variable {keys : List Datum} {key : Datum} {i j : Nat}

theorem mem_firstPlaces_iff :
    i ∈ firstPlaces keys ↔
      i < keys.length ∧ ∀ j < i, (keys.getD j .nil).equal (keys.getD i .nil) = false := by
  simp [firstPlaces]

theorem getD_snoc_last : (keys ++ [key]).getD keys.length .nil = key := by
  rw [List.getD_append_right _ _ _ _ (Nat.le_refl _), Nat.sub_self]
  rfl

/-- One more key has a first place unless a key before equals it, and takes none away. -/
theorem firstPlaces_snoc (keys : List Datum) (key : Datum) :
    firstPlaces (keys ++ [key])
      = firstPlaces keys ++ if keys.any (·.equal key) then [] else [keys.length] := by
  have hbefore : ∀ i ∈ List.range keys.length,
      ((List.range i).all fun j =>
        !((keys ++ [key]).getD j .nil).equal ((keys ++ [key]).getD i .nil))
        = (List.range i).all fun j => !(keys.getD j .nil).equal (keys.getD i .nil) := by
    intro i hi
    have hlt : i < keys.length := List.mem_range.mp hi
    rw [List.getD_append _ _ _ _ hlt, Bool.eq_iff_iff, List.all_eq_true, List.all_eq_true]
    refine forall₂_congr fun j hj => ?_
    rw [List.getD_append _ _ _ _ (Nat.lt_trans (List.mem_range.mp hj) hlt)]
  have hlast : ((List.range keys.length).all fun j =>
      !((keys ++ [key]).getD j .nil).equal ((keys ++ [key]).getD keys.length .nil))
      = !keys.any (·.equal key) := by
    rw [getD_snoc_last, Bool.eq_iff_iff, List.all_eq_true, Bool.not_eq_true', List.any_eq_false]
    constructor
    · intro hall old hold
      obtain ⟨j, hj, rfl⟩ := List.getElem_of_mem hold
      have hj' := hall j (List.mem_range.mpr hj)
      rw [List.getD_append _ _ _ _ hj, List.getD_eq_getElem _ _ hj] at hj'
      simpa using hj'
    · intro hall j hj
      have hlt : j < keys.length := List.mem_range.mp hj
      rw [List.getD_append _ _ _ _ hlt, List.getD_eq_getElem _ _ hlt]
      simpa using hall _ (List.getElem_mem hlt)
  unfold firstPlaces
  rw [List.length_append, List.length_singleton, List.range_succ, List.filter_append,
    List.filter_congr hbefore, List.filter_singleton, hlast]
  cases keys.any (·.equal key) <;> rfl

/-- With one more key, the places with an equal one may get one more at their end. -/
theorem equalPlaces_snoc (d : Datum) (keys : List Datum) (key : Datum) :
    (List.range (keys ++ [key]).length).filter (fun j => d.equal ((keys ++ [key]).getD j .nil))
      = (List.range keys.length).filter (fun j => d.equal (keys.getD j .nil))
        ++ if d.equal key then [keys.length] else [] := by
  have hbefore : ∀ j ∈ List.range keys.length,
      d.equal ((keys ++ [key]).getD j .nil) = d.equal (keys.getD j .nil) := by
    intro j hj
    rw [List.getD_append _ _ _ _ (List.mem_range.mp hj)]
  rw [List.length_append, List.length_singleton, List.range_succ, List.filter_append,
    List.filter_congr hbefore, List.filter_singleton, getD_snoc_last]
  cases d.equal key <;> rfl

/-- A last place moves to one more key that is equal. -/
theorem lastPlace_snoc (hi : i < keys.length) (key : Datum) :
    lastPlace (keys ++ [key]) i
      = if (keys.getD i .nil).equal key then keys.length else lastPlace keys i := by
  unfold lastPlace
  rw [List.getD_append _ _ _ _ hi, equalPlaces_snoc]
  cases (keys.getD i .nil).equal key with
  | true => simp
  | false => simp

/-- A key that does not equal itself has a first place, which is its last one too. -/
theorem places_of_not_equal_self (hi : i < keys.length)
    (hself : (keys.getD i .nil).equal (keys.getD i .nil) = false) :
    i ∈ firstPlaces keys ∧ lastPlace keys i = i := by
  constructor
  · refine mem_firstPlaces_iff.mpr ⟨hi, fun j _ => ?_⟩
    rw [equal_comm]
    exact not_equal_of_not_equal_self hself _
  · have hnone : (List.range keys.length).filter
        (fun j => (keys.getD i .nil).equal (keys.getD j .nil)) = [] := by
      rw [List.filter_eq_nil_iff]
      intro j _ hequal
      rw [not_equal_of_not_equal_self hself] at hequal
      cases hequal
    rw [lastPlace, hnone]
    rfl

/-- The last place of a key at the end is its own. -/
theorem lastPlace_snoc_self (keys : List Datum) (key : Datum) :
    lastPlace (keys ++ [key]) keys.length = keys.length := by
  cases hself : key.equal key with
  | true =>
    rw [lastPlace, getD_snoc_last, equalPlaces_snoc, hself]
    simp
  | false =>
    refine (places_of_not_equal_self (by simp) ?_).2
    rw [getD_snoc_last]
    exact hself

theorem lastPlace_lt (hi : i < keys.length) : lastPlace keys i < keys.length := by
  unfold lastPlace
  cases hlast : ((List.range keys.length).filter fun j =>
      (keys.getD i .nil).equal (keys.getD j .nil)).getLast? with
  | none => exact hi
  | some j => exact List.mem_range.mp (List.mem_of_mem_filter (List.mem_of_getLast? hlast))

/-- No two first places have equal keys. -/
theorem pairwise_firstPlaces (keys : List Datum) :
    (firstPlaces keys).Pairwise fun i j =>
      (keys.getD i .nil).equal (keys.getD j .nil) = false := by
  have hascending : (firstPlaces keys).Pairwise (· < ·) := List.pairwise_lt_range.filter _
  refine hascending.imp_of_mem ?_
  intro i j _ hj hlt
  exact (mem_firstPlaces_iff.mp hj).2 i hlt

/-- A key that any key equals is equal to one at a first place, which is the first of those it
    equals. -/
theorem exists_firstPlace (hany : keys.any (·.equal key) = true) :
    ∃ i ∈ firstPlaces keys, (keys.getD i .nil).equal key = true := by
  have hsome : ∃ i, i < keys.length ∧ (keys.getD i .nil).equal key = true := by
    obtain ⟨old, hold, hequal⟩ := List.any_eq_true.mp hany
    obtain ⟨i, hi, rfl⟩ := List.getElem_of_mem hold
    exact ⟨i, hi, by rw [List.getD_eq_getElem _ _ hi]; exact hequal⟩
  obtain ⟨hlt, hequal⟩ := Nat.find_spec hsome
  refine ⟨Nat.find hsome, mem_firstPlaces_iff.mpr ⟨hlt, ?_⟩, hequal⟩
  intro j hj
  cases hji : (keys.getD j .nil).equal (keys.getD (Nat.find hsome) .nil) with
  | false => rfl
  | true =>
    -- An earlier key equal to this one would be equal to the given key too.
    exact absurd ⟨Nat.lt_trans hj hlt, equal_trans hji hequal⟩ (Nat.find_min hsome hj)

end Datum

/-! ## Pairs stored in order -/

namespace Codec

open Datum

theorem set_findIdx?_map {f : Nat → Datum} {found : Nat → Bool} {places : List Nat} {index : Nat}
    (hfind : places.findIdx? found = some index)
    (honce : places.Pairwise fun i j => found i = true → found j = false) (value : Datum) :
    (places.map f).set index value = places.map fun i => if found i then value else f i := by
  induction places generalizing index with
  | nil => cases hfind
  | cons i rest ih =>
    obtain ⟨hfirst, hrest⟩ := List.pairwise_cons.mp honce
    rw [List.findIdx?_cons] at hfind
    cases hi : found i with
    | true =>
      simp only [hi, if_true, Option.some.injEq] at hfind
      subst hfind
      have hsame : rest.map (fun i => if found i then value else f i) = rest.map f := by
        apply List.map_congr_left
        intro j hj
        rw [hfirst j hj hi]
        rfl
      rw [List.map_cons, List.map_cons, List.set_cons_zero, hsame, hi]
      rfl
    | false =>
      rw [hi] at hfind
      obtain ⟨later, hlater, rfl⟩ := Option.map_eq_some_iff.mp hfind
      rw [List.map_cons, List.map_cons, List.set_cons_succ, ih hlater hrest, hi]
      rfl

/-- **The entries of a sequence of keys and values:** the keys at the first places, each with
    the value at its last place. -/
def Entries.ofPlaces (keys values : List Datum) : Entries :=
  ⟨(firstPlaces keys).map fun i => keys.getD i .nil,
    (firstPlaces keys).map fun i => values.getD (lastPlace keys i) .nil⟩

/-- The value of an old key when one more pair has come. -/
theorem getD_lastPlace_snoc {keys values : List Datum} {i : Nat} (hi : i < keys.length)
    (hlength : values.length = keys.length) (key value : Datum) :
    (values ++ [value]).getD (lastPlace (keys ++ [key]) i) .nil
      = if (keys.getD i .nil).equal key then value else values.getD (lastPlace keys i) .nil := by
  rw [lastPlace_snoc hi]
  cases (keys.getD i .nil).equal key with
  | true =>
    rw [if_pos rfl, if_pos rfl, ← hlength]
    exact getD_snoc_last
  | false =>
    rw [if_neg Bool.false_ne_true, if_neg Bool.false_ne_true]
    apply List.getD_append
    rw [hlength]
    exact lastPlace_lt hi

/-- **One more pair** is the last of the sequence. It can move last places and can have a first
    place of its own. -/
theorem Entries.store_ofPlaces {keys values : List Datum} (hlength : values.length = keys.length)
    (key value : Datum) :
    (Entries.ofPlaces keys values).store key value
      = Entries.ofPlaces (keys ++ [key]) (values ++ [value]) := by
  have hlt : ∀ i ∈ firstPlaces keys, i < keys.length := fun i hi => (mem_firstPlaces_iff.mp hi).1
  have hkeys : (firstPlaces keys).map (fun i => (keys ++ [key]).getD i .nil)
      = (firstPlaces keys).map fun i => keys.getD i .nil :=
    List.map_congr_left fun i hi => List.getD_append _ _ _ _ (hlt i hi)
  have hvalues : (firstPlaces keys).map
        (fun i => (values ++ [value]).getD (lastPlace (keys ++ [key]) i) .nil)
      = (firstPlaces keys).map fun i => if (keys.getD i .nil).equal key then value
          else values.getD (lastPlace keys i) .nil :=
    List.map_congr_left fun i hi => getD_lastPlace_snoc (hlt i hi) hlength key value
  unfold ofPlaces
  rw [firstPlaces_snoc, List.map_append, List.map_append, hkeys, hvalues]
  cases hany : keys.any (·.equal key) with
  | true =>
    obtain ⟨i, hi, hequal⟩ := exists_firstPlace hany
    obtain ⟨index, hfind⟩ : ∃ index,
        (firstPlaces keys).findIdx? (fun i => (keys.getD i .nil).equal key) = some index := by
      rw [← Option.isSome_iff_exists, List.findIdx?_isSome, List.any_eq_true]
      exact ⟨i, hi, hequal⟩
    -- Two first places with keys equal to this one would have equal keys.
    have honce : (firstPlaces keys).Pairwise fun i j =>
        (keys.getD i .nil).equal key = true → (keys.getD j .nil).equal key = false := by
      refine (pairwise_firstPlaces keys).imp ?_
      intro i j hij hi
      cases hj : (keys.getD j .nil).equal key with
      | false => rfl
      | true =>
        rw [equal_comm] at hj
        rw [equal_trans hi hj] at hij
        cases hij
    have hplace : ((firstPlaces keys).map fun i => keys.getD i .nil).findIdx? (·.equal key)
        = some index := by
      rw [List.findIdx?_map]
      exact hfind
    simp only [Entries.store, hplace, set_findIdx?_map hfind honce, if_true, List.map_nil,
      List.append_nil]
  | false =>
    have hnone : ∀ old ∈ (firstPlaces keys).map (fun i => keys.getD i .nil),
        old.equal key = false := by
      intro old hold
      obtain ⟨i, hi, rfl⟩ := List.mem_map.mp hold
      have hmem : keys.getD i .nil ∈ keys := by
        rw [List.getD_eq_getElem _ _ (hlt i hi)]
        exact List.getElem_mem _
      simpa using List.any_eq_false.mp hany _ hmem
    have hold : (firstPlaces keys).map (fun i => if (keys.getD i .nil).equal key then value
          else values.getD (lastPlace keys i) .nil)
        = (firstPlaces keys).map fun i => values.getD (lastPlace keys i) .nil := by
      apply List.map_congr_left
      intro i hi
      rw [hnone _ (List.mem_map_of_mem hi)]
      rfl
    have hlast : (values ++ [value]).getD (lastPlace (keys ++ [key]) keys.length) .nil = value := by
      rw [lastPlace_snoc_self, ← hlength]
      exact getD_snoc_last
    rw [Entries.store_of_new hnone, hold]
    simp only [Bool.false_eq_true, if_false, List.map_cons, List.map_nil, getD_snoc_last, hlast]

/-- **Pairs stored in order.** -/
theorem Entries.storeAll_eq_ofPlaces (pairs : List (Datum × Datum)) :
    Entries.storeAll ⟨[], []⟩ pairs = Entries.ofPlaces (pairs.map (·.1)) (pairs.map (·.2)) := by
  induction pairs using List.reverseRecOn with
  | nil => rfl
  | append_singleton pairs pair ih =>
    have hlength : (pairs.map (·.2)).length = (pairs.map (·.1)).length := by simp
    rw [List.map_append, List.map_append, List.map_singleton, List.map_singleton,
      ← Entries.store_ofPlaces hlength, ← ih]
    simp only [Entries.storeAll, List.foldl_append, List.foldl_cons, List.foldl_nil]

/-! ### What the entries depend on -/

theorem firstPlaces_map {f : Datum → Datum} (hequal : ∀ a b, (f a).equal (f b) = a.equal b)
    (hnil : f .nil = .nil) (keys : List Datum) :
    firstPlaces (keys.map f) = firstPlaces keys := by
  have hat : ∀ i, (keys.map f).getD i .nil = f (keys.getD i .nil) := by
    intro i
    rw [← hnil, List.getD_map, hnil]
  simp only [firstPlaces, hat, hequal, List.length_map]

theorem lastPlace_map {f : Datum → Datum} (hequal : ∀ a b, (f a).equal (f b) = a.equal b)
    (hnil : f .nil = .nil) (keys : List Datum) (i : Nat) :
    lastPlace (keys.map f) i = lastPlace keys i := by
  have hat : ∀ i, (keys.map f).getD i .nil = f (keys.getD i .nil) := by
    intro i
    rw [← hnil, List.getD_map, hnil]
  simp only [lastPlace, hat, hequal, List.length_map]

/-- Whether objects in keys and values were given contents has no bearing on the places. -/
theorem Entries.ofPlaces_filled (keys values : List Datum) :
    Entries.ofPlaces (keys.map filled) (values.map filled)
      = ⟨(Entries.ofPlaces keys values).keys.map filled,
          (Entries.ofPlaces keys values).values.map filled⟩ := by
  have hequal : ∀ a b : Datum, a.filled.equal b.filled = a.equal b := by
    intro a b
    rw [equal_filled, equal_comm, equal_filled, equal_comm]
  have hat : ∀ (ds : List Datum) i, (ds.map filled).getD i .nil = (ds.getD i .nil).filled :=
    fun ds i => List.getD_map ds .nil filled
  simp only [Entries.ofPlaces, firstPlaces_map hequal rfl, lastPlace_map hequal rfl, hat,
    List.map_map, Function.comp_def]

/-- Values count at the places of keys only. -/
theorem Entries.ofPlaces_congr {keys values values' : List Datum}
    (hsame : ∀ i < keys.length, values.getD i .nil = values'.getD i .nil) :
    Entries.ofPlaces keys values = Entries.ofPlaces keys values' := by
  unfold ofPlaces
  congr 1
  apply List.map_congr_left
  intro i hi
  exact hsame _ (lastPlace_lt (mem_firstPlaces_iff.mp hi).1)

/-- With a value for each key and no two keys equal, nothing is lost. -/
theorem Entries.ofPlaces_of_distinct {keys values : List Datum}
    (hlength : keys.length = values.length)
    (hdistinct : keys.Pairwise fun a b => a.equal b = false) :
    Entries.ofPlaces keys values = ⟨keys, values⟩ := by
  have hplaces := Entries.storeAll_eq_ofPlaces (keys.zip values)
  rw [List.map_fst_zip (Nat.le_of_eq hlength), List.map_snd_zip (Nat.le_of_eq hlength.symm)]
    at hplaces
  rw [← hplaces, Entries.storeAll_of_distinct hlength (fun old hold => by cases hold) hdistinct]
  rfl

end Codec

/-! ## Stores into a new object -/

namespace Heap

open Codec (Entries)

variable {h h' old : Heap} {id : NodeId} {key v : Value} {entries : Entries}

/-- **A new object that holds given entries** so far. -/
structure FilledWith (old h : Heap) (id : NodeId) (entries : Entries) : Prop where
  filling : Filling old h id
  object : ∃ o, h.nodes[id]? = some (.object o) ∧ o.keys.toList.map h.view = entries.keys ∧
    o.values.toList.map h.view = entries.values ∧
    o.capacity = capacityAfter defaultCapacity 0 o.keys.size

/-- An old value holds what it held before the object was begun. -/
theorem Filling.view_eq (hf : Filling old h id) (hold : old.Sound) (hv : old.Valid v) :
    h.view v = old.view v := view_older hold hf.kept hv

/-- **One store** into the new object is one store into its entries. -/
theorem FilledWith.store (hf : FilledWith old h id entries) (hold : old.Sound)
    (hkey : old.Valid key) (hv : old.Valid v) :
    ∃ h', h.store id key v = .ok h' ∧
      FilledWith old h' id (entries.store (old.view key).filled (old.view v).filled) := by
  obtain ⟨o, ho, hkeys, hvalues, hcapacity⟩ := hf.object
  obtain ⟨h', hst, hfilling, -⟩ := hf.filling.store hold hkey hv
  refine ⟨h', hst, hfilling, ?_⟩
  have hs := hf.filling.sound
  have hext := hf.filling.extends
  have ho? := object?_eq_some_iff.mpr ho
  obtain ⟨o', ho', hstored⟩ := storedAs_of_store hs ho? (hext.valid hkey) (hext.valid hv) hst
  rw [object?_eq_some_iff] at ho'
  -- The old keys and values hold what they held, and the key is found among them as before.
  have hkeys' : o.keys.toList.map h'.view = entries.keys := by
    rw [← hkeys]
    exact List.map_congr_left fun k hk => view_key_store hs ho? hst (Array.mem_toList_iff.mp hk)
  have hvalues' : o.values.toList.map h'.view = entries.values := by
    rw [← hvalues]
    refine List.map_congr_left fun w hw => ?_
    obtain ⟨index, hindex⟩ := getElem?_eq_some_of_mem hw
    exact view_inside_store hs ho? hst (p := .value index) hindex
  have hplace : h.keyIndex? o key = entries.keys.findIdx? (·.equal (old.view key).filled) := by
    rw [← hkeys, List.findIdx?_map]
    apply findIdx?_congr
    intro k _
    rw [hf.filling.view_eq hold hkey, Function.comp_apply, Datum.equal_comm,
      Datum.equal_comm _ (Datum.filled _), Datum.equal_filled]
  cases hstored with
  | @known index w hindex hvalue =>
    have hcopy := (hvalue (hf.filling.not_reaches hold hv)).contents
    rw [hf.filling.view_eq hold hv] at hcopy
    rw [hplace] at hindex
    refine ⟨_, ho', ?_, ?_, hcapacity⟩
    · simp only [Entries.store, hindex]
      exact hkeys'
    · simp only [Entries.store, hindex, ObjectNode.replaceValue, Array.toList_setIfInBounds,
        List.map_set, hvalues', hcopy]
  | @new k w hnone hkey' hequal hvalue =>
    have hcopy := (hvalue (hf.filling.not_reaches hold hv)).contents
    have hcopyKey := (hkey' (hf.filling.not_reaches hold hkey)).contents
    rw [hf.filling.view_eq hold hv] at hcopy
    rw [hf.filling.view_eq hold hkey] at hcopyKey
    rw [hplace] at hnone
    refine ⟨_, ho', ?_, ?_, ?_⟩
    · simp only [Entries.store, hnone, ObjectNode.pushValue, ObjectNode.pushKey,
        ObjectNode.grown, Array.toList_push, List.map_append, hkeys', List.map_singleton, hcopyKey]
    · simp only [Entries.store, hnone, ObjectNode.pushValue, ObjectNode.pushKey,
        ObjectNode.grown, Array.toList_push, List.map_append, hvalues', List.map_singleton, hcopy]
    · show grownCapacity o.capacity o.keys.size
        = capacityAfter defaultCapacity 0 (o.keys.push k).size
      rw [Array.size_push, capacityAfter_succ, ← hcapacity, Nat.zero_add]

/-- **Stores in order.** -/
theorem FilledWith.storeAll (hf : FilledWith old h id entries) (hold : old.Sound)
    {pairs : List (Value × Value)}
    (hpairs : ∀ pair ∈ pairs, old.Valid pair.1 ∧ old.Valid pair.2) :
    ∃ h', h.storeAll id pairs = .ok h' ∧ FilledWith old h' id (entries.storeAll
      (pairs.map fun pair => ((old.view pair.1).filled, (old.view pair.2).filled))) := by
  induction pairs generalizing h entries with
  | nil => exact ⟨h, rfl, hf⟩
  | cons pair rest ih =>
    obtain ⟨key, v⟩ := pair
    obtain ⟨hkey, hv⟩ := hpairs (key, v) List.mem_cons_self
    obtain ⟨h₁, hst, hf₁⟩ := hf.store hold hkey hv
    obtain ⟨h₂, hall, hf₂⟩ := ih hf₁ fun pair hp => hpairs pair (List.mem_cons_of_mem _ hp)
    refine ⟨h₂, ?_, hf₂⟩
    rw [Heap.storeAll, hst]
    exact hall

theorem filledWith_newObject (hs : h.Sound) :
    FilledWith h h.newObject.2 h.nodes.size ⟨[], []⟩ where
  filling := filling_newObject hs
  object := ⟨.empty, Array.getElem?_push_size, rfl, rfl, rfl⟩

theorem map_fst_pairUp (keys values : List Value) : (pairUp keys values).map (·.1) = keys := by
  fun_induction pairUp keys values with
  | case1 values => rfl
  | case2 key keys ih => rw [List.map_cons, ih]
  | case3 key keys v values ih => rw [List.map_cons, ih]

/-- The value for a key is the one at its place, nil beyond the values. -/
theorem getD_snd_pairUp (keys values : List Value) {i : Nat} (hi : i < keys.length) :
    ((pairUp keys values).map (·.2)).getD i .nil = values.getD i .nil := by
  fun_induction pairUp keys values generalizing i with
  | case1 values => cases hi
  | case2 key keys ih =>
    cases i with
    | zero => rfl
    | succ i =>
      rw [List.map_cons, List.getD_cons_succ, ih (Nat.lt_of_succ_lt_succ hi)]
      rfl
  | case3 key keys v values ih =>
    cases i with
    | zero => rfl
    | succ i =>
      rw [List.map_cons, List.getD_cons_succ, List.getD_cons_succ,
        ih (Nat.lt_of_succ_lt_succ hi)]

/-- Values beyond the keys are not looked at. -/
theorem pairUp_append {keys values : List Value} (hle : keys.length ≤ values.length)
    (extra : List Value) : pairUp keys (values ++ extra) = pairUp keys values := by
  fun_induction pairUp keys values with
  | case1 values => simp [pairUp]
  | case2 key keys ih => cases hle
  | case3 key keys v values ih =>
    rw [List.cons_append, pairUp, ih (Nat.le_of_succ_le_succ hle)]

/-- Keys and values paired up have the entries of the two sequences. -/
theorem storeAll_pairUp {f : Value → Datum} (hnil : f .nil = .nil) (keys values : List Value) :
    Entries.storeAll ⟨[], []⟩ ((pairUp keys values).map fun pair => (f pair.1, f pair.2))
      = Entries.ofPlaces (keys.map f) (values.map f) := by
  have hkeys : (pairUp keys values).map (fun pair => f pair.1) = keys.map f := by
    rw [← map_fst_pairUp keys values, List.map_map, map_fst_pairUp]
    rfl
  have hvalues : (pairUp keys values).map (fun pair => f pair.2)
      = ((pairUp keys values).map (·.2)).map f := by
    rw [List.map_map]
    rfl
  rw [Entries.storeAll_eq_ofPlaces, List.map_map, List.map_map]
  show Entries.ofPlaces ((pairUp keys values).map fun pair => f pair.1)
    ((pairUp keys values).map fun pair => f pair.2) = _
  rw [hkeys, hvalues]
  apply Entries.ofPlaces_congr
  intro i hi
  rw [List.length_map] at hi
  rw [← hnil, List.getD_map, List.getD_map, getD_snd_pairUp keys values hi]

theorem view_nil (h : Heap) : h.view .nil = .nil := by
  simp only [view, viewWithin]

/-- **An object from keys and values** holds the entries of the two sequences, in new nodes. -/
theorem exists_objectOf (hs : h.Sound) {keys values : List Value}
    (hkeys : ∀ v ∈ keys, h.Valid v) (hvalues : ∀ v ∈ values, h.Valid v) :
    ∃ h', h.objectOf keys values = .ok (.object h.nodes.size, h') ∧
      h.Older h' ∧ h'.Sound ∧ h'.Valid (.object h.nodes.size) ∧
      h'.view (.object h.nodes.size)
        = (Entries.ofPlaces ((keys.map h.view).map Datum.filled)
            ((values.map h.view).map Datum.filled)).toDatum := by
  obtain ⟨h', hall, hf⟩ := (filledWith_newObject hs).storeAll hs (valid_pairUp hkeys hvalues)
  obtain ⟨o, ho, hviews, hviews', hcapacity⟩ := hf.object
  refine ⟨h', ?_, hf.filling.kept, hf.filling.sound, ?_, ?_⟩
  · show (do return (Value.object h.nodes.size,
      ← h.newObject.2.storeAll h.nodes.size (pairUp keys values))) = _
    rw [hall]
    rfl
  · rintro _ ⟨⟩
    exact ⟨_, ho, trivial⟩
  · have hentries := storeAll_pairUp (f := fun v => (h.view v).filled)
      (congrArg Datum.filled (view_nil h)) keys values
    rw [hentries] at hviews hviews'
    have hsize := congrArg List.length hviews
    rw [List.length_map, Array.length_toList] at hsize
    rw [hf.filling.sound.view_object ho, hviews, hviews', hcapacity, hsize, List.map_map,
      List.map_map]
    rfl

end Heap

end ValueRuntime
