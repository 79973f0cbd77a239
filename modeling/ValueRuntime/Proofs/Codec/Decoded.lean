import ValueRuntime.Proofs.Codec.Reading
import ValueRuntime.Proofs.Codec.RoundTrip

/-! # Decoded data

    What can be said of a datum that was decoded, whatever bytes it was decoded from.

    * It holds no function, each of its objects has as many values as keys and no key twice,
      its texts are UTF-8 and its containers no longer than is read.
    * A datum with these properties comes back as it is when it is encoded and decoded. So
      encoding what was decoded gives a form that is kept from then on.
-/

namespace ValueRuntime

open Codec

namespace Codec

/-! ## Collecting -/

theorem collectData_eq_ok {results : List (Except Failure Datum)} {index : Nat}
    {data : List Datum} (hok : collectData index results = .ok data) :
    results = data.map .ok := by
  induction results generalizing index data with
  | nil =>
    cases hok
    rfl
  | cons first rest ih =>
    obtain ⟨d, hfirst, hok'⟩ := bind_eq_ok hok
    obtain ⟨more, hmore, hdone⟩ := bind_eq_ok hok'
    cases hdone
    rw [mapError_eq_ok hfirst, ih hmore, List.map_cons]

theorem collectEntries_eq_ok {entries entries' : Entries} {index : Nat}
    {pairs : List (Except Failure Datum × Except Failure Datum)}
    (hok : collectEntries entries index pairs = .ok entries') :
    ∃ data : List (Datum × Datum), pairs = data.map (fun pair => (.ok pair.1, .ok pair.2)) ∧
      entries' = entries.storeAll data := by
  induction pairs generalizing entries index with
  | nil =>
    cases hok
    exact ⟨[], rfl, rfl⟩
  | cons pair rest ih =>
    obtain ⟨key, value⟩ := pair
    obtain ⟨k, hkey, hok'⟩ := bind_eq_ok hok
    obtain ⟨v, hvalue, hrest⟩ := bind_eq_ok hok'
    obtain ⟨data, rfl, hstored⟩ := ih hrest
    refine ⟨(k, v) :: data, ?_, hstored⟩
    rw [mapError_eq_ok hkey, mapError_eq_ok hvalue, List.map_cons]

/-! ## Entries that were stored one by one -/

/-- Entries whose keys are all different, with a value for each key and with good contents. -/
structure Entries.Formed (good : Datum → Prop) (entries : Entries) : Prop where
  sizes : entries.keys.length = entries.values.length
  distinct : entries.keys.Pairwise fun a b => a.equal b = false
  keys : ∀ d ∈ entries.keys, good d
  values : ∀ d ∈ entries.values, good d

section Formed

variable {good : Datum → Prop} {entries : Entries}

/-- A pair is stored under a key that is there already, or the key is new. -/
theorem Entries.store_cases (entries : Entries) (key value : Datum) :
    (∃ index, entries.store key value = ⟨entries.keys, entries.values.set index value⟩) ∨
      (∀ old ∈ entries.keys, old.equal key = false) ∧
        entries.store key value = ⟨entries.keys ++ [key], entries.values ++ [value]⟩ := by
  cases hfind : entries.keys.findIdx? (·.equal key) with
  | some index => exact .inl ⟨index, by simp only [Entries.store, hfind]⟩
  | none =>
    have hnew : ∀ old ∈ entries.keys, old.equal key = false := by
      simpa [List.findIdx?_eq_none_iff] using hfind
    exact .inr ⟨hnew, Entries.store_of_new hnew value⟩

theorem Entries.formed_empty : (⟨[], []⟩ : Entries).Formed good := by
  constructor <;> simp

theorem Entries.Formed.mem (hf : entries.Formed good) {d : Datum}
    (hd : d ∈ entries.keys ++ entries.values) : good d := by
  rcases List.mem_append.mp hd with hin | hin
  · exact hf.keys d hin
  · exact hf.values d hin

theorem Entries.Formed.store (hf : entries.Formed good) {key value : Datum} (hkey : good key)
    (hvalue : good value) : (entries.store key value).Formed good := by
  rcases entries.store_cases key value with ⟨index, hstore⟩ | ⟨hnew, hstore⟩
  · rw [hstore]
    refine ⟨by simp [hf.sizes], hf.distinct, hf.keys, ?_⟩
    intro d hd
    rcases List.mem_or_eq_of_mem_set hd with hold | rfl
    · exact hf.values d hold
    · exact hvalue
  · rw [hstore]
    refine ⟨by simp [hf.sizes], ?_, ?_, ?_⟩
    · rw [List.pairwise_append]
      refine ⟨hf.distinct, List.pairwise_singleton _ _, ?_⟩
      intro old hold last hlast
      rw [List.mem_singleton.mp hlast]
      exact hnew old hold
    · simpa [or_imp, forall_and] using ⟨hf.keys, hkey⟩
    · simpa [or_imp, forall_and] using ⟨hf.values, hvalue⟩

theorem Entries.Formed.storeAll (hf : entries.Formed good) {pairs : List (Datum × Datum)}
    (hpairs : ∀ pair ∈ pairs, good pair.1 ∧ good pair.2) :
    (entries.storeAll pairs).Formed good := by
  induction pairs generalizing entries with
  | nil => exact hf
  | cons pair rest ih =>
    have hpair := hpairs pair List.mem_cons_self
    exact ih (hf.store hpair.1 hpair.2) fun p hp => hpairs p (List.mem_cons_of_mem _ hp)

/-- Every pair that is stored adds one key at most. -/
theorem Entries.length_storeAll_le (entries : Entries) (pairs : List (Datum × Datum)) :
    (entries.storeAll pairs).keys.length ≤ entries.keys.length + pairs.length := by
  induction pairs generalizing entries with
  | nil => exact Nat.le_refl _
  | cons pair rest ih =>
    have hrest := ih (entries.store pair.1 pair.2)
    have hfirst : (entries.store pair.1 pair.2).keys.length ≤ entries.keys.length + 1 := by
      rcases entries.store_cases pair.1 pair.2 with ⟨index, hstore⟩ | ⟨-, hstore⟩
      · simp [hstore]
      · simp [hstore]
    rw [List.length_cons]
    exact Nat.le_trans hrest (by omega)

end Formed

end Codec

/-! ## Data from records -/

/-- **A decoded datum:** one that may come of decoding at most `size` bytes when `levels` levels
    can still be opened. The map of a record takes one level and the array of its parts another;
    nil may be written without either. -/
inductive Datum.Decoded (size : Nat) : (levels : Nat) → Datum → Prop where
  | nil {levels : Nat} : Decoded size levels .nil
  | boolean {levels : Nat} (b : Bool) : Decoded size (levels + 1) (.boolean b)
  | number {levels : Nat} (x : Number) : Decoded size (levels + 1) (.number x)
  | string {levels : Nat} {s : Bytes} (hutf8 : Utf8.isValid s = true) (hsize : s.length ≤ size) :
      Decoded size (levels + 1) (.string s)
  | list {levels : Nat} {items : List Datum} (hcount : items.length ≤ maxCount)
      (hroom : ∀ d ∈ items, 0 < levels) (hitems : ∀ d ∈ items, Decoded size (levels - 1) d) :
      Decoded size (levels + 1) (.list (capacityAfter defaultCapacity 0 items.length) items)
  | object {levels : Nat} {entries : Entries} (hcount : entries.keys.length ≤ maxCount)
      (hsizes : entries.keys.length = entries.values.length)
      (hdistinct : entries.keys.Pairwise fun a b => a.equal b = false)
      (hroom : ∀ d ∈ entries.keys ++ entries.values, 0 < levels)
      (hparts : ∀ d ∈ entries.keys ++ entries.values, Decoded size (levels - 1) d) :
      Decoded size (levels + 1) entries.toDatum

namespace Codec

variable {size levels : Nat}

/-- What a part of a record gives lies one array further in than the record's fields. -/
def Record.Within (size levels : Nat) (part : Record) : Prop :=
  ∀ d, part.toDatum = .ok d → 0 < levels ∧ d.Decoded size (levels - 1)

theorem decoded_list {items : List Record} {data : List Datum} (hcount : items.length ≤ maxCount)
    (hparts : ∀ part ∈ items, part.Within size levels)
    (hok : collectData 0 (toData items) = .ok data) :
    Datum.Decoded size (levels + 1) (.list (capacityAfter defaultCapacity 0 data.length) data) := by
  have hall := collectData_eq_ok hok
  rw [toData_eq_map] at hall
  have hlength : items.length = data.length := by
    simpa using congrArg List.length hall
  have hdata : ∀ d ∈ data, 0 < levels ∧ d.Decoded size (levels - 1) := by
    intro d hd
    have hmem : .ok d ∈ items.map Record.toDatum := by
      rw [hall]
      exact List.mem_map_of_mem hd
    obtain ⟨part, hpart, hdatum⟩ := List.mem_map.mp hmem
    exact hparts part hpart d hdatum
  exact .list (by omega) (fun d hd => (hdata d hd).1) fun d hd => (hdata d hd).2

theorem decoded_object {keys items : List Record} {entries : Entries}
    (hcount : keys.length ≤ maxCount)
    (hparts : ∀ part ∈ items ++ keys, part.Within size levels)
    (hok : collectEntries ⟨[], []⟩ 0 ((toData keys).zip (toData items)) = .ok entries) :
    Datum.Decoded size (levels + 1) entries.toDatum := by
  obtain ⟨pairs, hall, rfl⟩ := collectEntries_eq_ok hok
  rw [toData_eq_map, toData_eq_map] at hall
  have hpairs : ∀ pair ∈ pairs, (0 < levels ∧ pair.1.Decoded size (levels - 1)) ∧
      0 < levels ∧ pair.2.Decoded size (levels - 1) := by
    intro pair hpair
    have hzip : (Except.ok pair.1, Except.ok pair.2) ∈
        (keys.map Record.toDatum).zip (items.map Record.toDatum) := by
      rw [hall]
      exact List.mem_map.mpr ⟨pair, hpair, rfl⟩
    obtain ⟨hkey, hvalue⟩ := List.of_mem_zip hzip
    obtain ⟨key, hk, hkey⟩ := List.mem_map.mp hkey
    obtain ⟨value, hv, hvalue⟩ := List.mem_map.mp hvalue
    exact ⟨hparts key (List.mem_append_right _ hk) _ hkey,
      hparts value (List.mem_append_left _ hv) _ hvalue⟩
  have hformed : (Entries.storeAll ⟨[], []⟩ pairs).Formed
      fun d => 0 < levels ∧ d.Decoded size (levels - 1) := Entries.formed_empty.storeAll hpairs
  have hlength : (Entries.storeAll ⟨[], []⟩ pairs).keys.length ≤ maxCount := by
    have hstored := Entries.length_storeAll_le ⟨[], []⟩ pairs
    have hsame := congrArg List.length hall
    simp only [List.length_zip, List.length_map, List.length_nil] at hsame hstored
    omega
  refine .object hlength hformed.sizes hformed.distinct ?_ ?_
  · exact fun d hd => (hformed.mem hd).1
  · exact fun d hd => (hformed.mem hd).2

/-- **What an admitted record decodes to.** -/
theorem Record.Admitted.decoded {r : Record} {d : Datum} (ha : r.Admitted size levels)
    (hok : r.toDatum = .ok d) : d.Decoded size levels := by
  induction ha generalizing d with
  | null =>
    cases hok
    exact .nil
  | @record levels r hutf8 htext hitems hkeys hroom hparts ih =>
    obtain ⟨kind, flag, number, text, items, keys⟩ := r
    have hwithin : ∀ part ∈ items ++ keys, part.Within size levels :=
      fun part hpart d hdatum => ⟨hroom part hpart, ih part hpart hdatum⟩
    rw [Record.toDatum] at hok
    split at hok
    · cases hok
      exact .nil
    · cases hok
      exact .boolean flag
    · cases hok
      exact .number number
    · cases hok
      exact .string hutf8 htext
    · obtain ⟨data, hcollect, hdone⟩ := bind_eq_ok hok
      cases hdone
      exact decoded_list hitems (fun part hp => hwithin part (List.mem_append_left _ hp)) hcollect
    · split at hok
      · cases hok
      · obtain ⟨entries, hcollect, hdone⟩ := bind_eq_ok hok
        cases hdone
        exact decoded_object hkeys hwithin hcollect
    · cases hok
    · cases hok

/-- **What decoding gives,** whatever the bytes are. -/
theorem decoded_of_decode {input : Bytes} {d : Datum} (hok : decode input = .ok d) :
    d.Decoded input.length maxLevels := by
  obtain ⟨item, hread, hok'⟩ := bind_eq_ok hok
  obtain ⟨record, hrecord, hdatum⟩ := bind_eq_ok hok'
  have hadmitted := (Item.admitted_of_read (mapError_eq_ok hread)).filling.record record
    (mapError_eq_ok hrecord)
  exact hadmitted.decoded (mapError_eq_ok hdatum)

end Codec

/-! ## Conditions that decoded data meet -/

namespace Datum.Decoded

variable {size levels : Nat} {d : Datum}

/-- A condition on one container at a time holds everywhere when decoded data have it. -/
theorem every {p : Datum → Bool} (hp : ∀ levels d, Decoded size levels d → p d = true)
    (hd : Decoded size levels d) : d.every p = true := by
  induction hd with
  | nil => exact hp 0 _ .nil
  | boolean b => exact hp 1 _ (.boolean b)
  | number x => exact hp 1 _ (.number x)
  | string hutf8 hsize => exact hp 1 _ (.string hutf8 hsize)
  | list hcount hroom hitems ih =>
    rw [every_list_iff]
    exact ⟨hp _ _ (.list hcount hroom hitems), ih⟩
  | object hcount hsizes hdistinct hroom hparts ih =>
    rw [Entries.toDatum, every_object_iff]
    refine ⟨hp _ _ (.object hcount hsizes hdistinct hroom hparts), ?_, ?_⟩
    · exact fun d hd => ih d (List.mem_append_left _ hd)
    · exact fun d hd => ih d (List.mem_append_right _ hd)

theorem isEncodable (hd : Decoded size levels d) : d.isEncodable = true := by
  refine hd.every ?_
  intro levels d hd
  cases hd <;> rfl

theorem isBalanced (hd : Decoded size levels d) : d.isBalanced = true := by
  refine hd.every ?_
  intro levels d hd
  cases hd with
  | object _ hsizes _ _ _ => exact beq_iff_eq.mpr hsizes
  | _ => rfl

theorem hasDistinctKeys (hd : Decoded size levels d) : d.hasDistinctKeys = true := by
  refine hd.every ?_
  intro levels d hd
  cases hd with
  | object _ _ hdistinct _ _ => exact decide_eq_true hdistinct
  | _ => rfl

theorem isUtf8 (hd : Decoded size levels d) : d.isUtf8 = true := by
  refine hd.every ?_
  intro levels d hd
  cases hd with
  | string hutf8 _ => exact hutf8
  | _ => rfl

theorem fits (hd : Decoded size levels d) : d.fits = true := by
  refine hd.every ?_
  intro levels d hd
  cases hd with
  | list hcount _ _ => exact decide_eq_true hcount
  | object hcount _ _ _ _ => exact decide_eq_true hcount
  | _ => rfl

theorem isSized (hd : Decoded size levels d) (hsize : size < lengthLimit) : d.isSized = true := by
  have hlimit : maxCount < lengthLimit := by decide
  refine hd.every ?_
  intro levels d hd
  cases hd with
  | string _ hlength => exact decide_eq_true (by omega)
  | list hcount _ _ => exact decide_eq_true (by omega)
  | object hcount _ _ _ _ => exact decide_eq_true (by omega)
  | _ => rfl

/-- Decoded data have the room that appending leaves, so they come back as they are. -/
theorem rebuilt_eq (hd : Decoded size levels d) : rebuilt d = d := by
  have hmap : ∀ {ds : List Datum}, (∀ d ∈ ds, rebuilt d = d) → rebuiltAll ds = ds := by
    intro ds hds
    rw [rebuiltAll_eq_map]
    exact (List.map_congr_left hds).trans (List.map_id ds)
  induction hd with
  | list _ _ _ ih => rw [rebuilt, hmap ih]
  | @object levels entries hcount hsizes hdistinct _ _ ih =>
    have hkeys := hmap fun d hd => ih d (List.mem_append_left _ hd)
    have hvalues := hmap fun d hd => ih d (List.mem_append_right _ hd)
    rw [Entries.toDatum, rebuilt, hkeys, hvalues,
      Entries.storeAll_of_distinct hsizes (fun old hold => by cases hold) hdistinct]
    rfl
  | _ => rfl

end Datum.Decoded

/-! ## The canonical form -/

/-- **Decoding and encoding is a canonicalisation.** Whatever bytes are decoded, the datum holds
    no function, has a value for each key and no two equal keys in any object; and when it can be
    encoded, its encoded form decodes to the same datum, so that encoding and decoding change
    nothing any more. (A byte string is shorter than `lengthLimit`, as a machine can count.) -/
theorem decoded_form_is_canonical {input : Bytes} {d : Datum} (hok : decode input = .ok d) :
    d.isEncodable = true ∧ d.isBalanced = true ∧ d.hasDistinctKeys = true ∧
      (input.length < lengthLimit → ∀ bytes, encode d = .ok bytes →
        decode bytes = .ok d) := by
  have hd := decoded_of_decode hok
  refine ⟨hd.isEncodable, hd.isBalanced, hd.hasDistinctKeys, ?_⟩
  intro hsize bytes hbytes
  rw [decode_encoded hd.isBalanced (hd.isSized hsize) hbytes, hd.fits, hd.isUtf8, hd.rebuilt_eq]
  rfl

/-- Integers written the long way, a field that does not exist, and an object that has a key
    twice, once in chunks: the second value is kept, under the first key. -/
theorem loose_object_is_canonical :
    let input : Bytes := [0xbf, 0x18, 0x01, 0x05, 0x09, 0xf6,
      0x06, 0x82, 0xa2, 0x01, 0x03, 0x04, 0x61, 0x61,
      0xa2, 0x01, 0x03, 0x04, 0x7f, 0x61, 0x61, 0xff,
      0x05, 0x9f, 0xf6, 0xa2, 0x01, 0x01, 0x02, 0xf5, 0xff, 0xff]
    let d : Datum := .object 8 [.string [0x61]] [.boolean true]
    let bytes := (recordOf d).toItem.write
    decode input = .ok d ∧ encode d = .ok bytes ∧ bytes ≠ input ∧ decode bytes = .ok d := by
  intro input d bytes
  have hok : decode input = .ok d := rfl
  have hbytes : encode d = .ok bytes := (encode_eq_ok_iff rfl bytes).mpr ⟨by decide, rfl⟩
  refine ⟨hok, hbytes, by decide, ?_⟩
  exact (decoded_form_is_canonical hok).2.2.2 (by decide) bytes hbytes

end ValueRuntime
