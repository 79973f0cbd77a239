import ValueRuntime.Proofs.Codec.Records
import ValueRuntime.Proofs.Datum.Tree

/-! # Data and their records

    Which data have an encoded form, and what becomes of a datum that is encoded and decoded.
    A datum is encoded through its record. The conditions under which the record can be read
    back are conditions on the datum.
-/

namespace ValueRuntime

/-! ## Conditions on data -/

namespace Datum

/-- Whether a datum holds no function, and no object without keys and values. -/
def isEncodable : Datum → Bool := every fun
  | .function _ => false
  | .hollow => false
  | _ => true

theorem isEncodable_iff (d : Datum) :
    d.isEncodable = true ↔ d.isFunctionFree = true ∧ d.isWhole = true := by
  apply every_and_iff
  intro d
  cases d <;> simp

/-- Whether every string in a datum is valid UTF-8. -/
def isUtf8 : Datum → Bool := every fun
  | .string s => Utf8.isValid s
  | _ => true

/-- Whether every list and every object in a datum has at most as many entries as are read. -/
def fits : Datum → Bool := every fun
  | .list _ items => decide (items.length ≤ Codec.maxCount)
  | .object _ keys _ => decide (keys.length ≤ Codec.maxCount)
  | _ => true

/-- Whether every length in a datum is one that a machine can count. -/
def isSized : Datum → Bool := every fun
  | .string s => decide (s.length < Codec.lengthLimit)
  | .list _ items => decide (items.length < Codec.lengthLimit)
  | .object _ keys _ => decide (keys.length < Codec.lengthLimit)
  | _ => true

end Datum

namespace Codec

/-! ## Records of data -/

mutual

/-- **The record of a datum.** Functions and objects without contents have one as well, but
    it is never written. -/
def recordOf : Datum → Record
  | .nil => kindRecord .nil
  | .boolean b => { kindRecord .boolean with flag := b }
  | .number x => { kindRecord .number with number := x }
  | .string s => { kindRecord .string with text := s }
  | .list _ items => { kindRecord .list with items := recordsOf items }
  | .object _ keys values =>
    { kindRecord .object with items := recordsOf values, keys := recordsOf keys }
  | .hollow => kindRecord .object
  | .function _ => kindRecord .function

/-- The records of several data. -/
def recordsOf : List Datum → List Record
  | [] => []
  | d :: rest => recordOf d :: recordsOf rest

end

theorem recordsOf_eq_map (ds : List Datum) : recordsOf ds = ds.map recordOf := by
  induction ds with
  | nil => rfl
  | cons d rest ih => rw [recordsOf, ih, List.map_cons]

/-! ## Which data are encoded -/

theorem collectItems_eq_ok_iff {results : List (Except EncodeError Record)} {index : Nat}
    {records : List Record} :
    collectItems index results = .ok records ↔ results = records.map .ok := by
  induction results generalizing index records with
  | nil =>
    constructor
    · intro hok
      cases hok
      rfl
    · intro hall
      rw [List.map_eq_nil_iff.mp hall.symm]
      rfl
  | cons first rest ih =>
    constructor
    · intro hok
      obtain ⟨record, hfirst, hok'⟩ := bind_eq_ok hok
      obtain ⟨more, hmore, hdone⟩ := bind_eq_ok hok'
      cases hdone
      rw [mapError_eq_ok hfirst, ih.mp hmore, List.map_cons]
    · intro hall
      cases records with
      | nil => cases hall
      | cons record more =>
        obtain ⟨rfl, hrest⟩ := List.cons_eq_cons.mp hall
        show (do
          let more ← collectItems (index + 1) rest
          return record :: more) = _
        rw [ih.mpr hrest]
        rfl

theorem collectPairs_eq_ok_iff {values : List (Except EncodeError Record)}
    {keys : List (Bytes × Except EncodeError Record)} {index : Nat}
    (hlength : index + keys.length = values.length) {ks vs : List Record} :
    collectPairs values index keys = .ok (ks, vs) ↔
      keys.map Prod.snd = ks.map .ok ∧ values.drop index = vs.map .ok := by
  -- Keys are taken one by one while values are looked up by index, so the values still to
  -- come are those from `index` on.
  induction keys generalizing index ks vs with
  | nil =>
    have hdrop : values.drop index = [] := List.drop_eq_nil_of_le (by simp at hlength; omega)
    rw [collectPairs, hdrop]
    constructor
    · intro hok
      cases hok
      exact ⟨rfl, rfl⟩
    · rintro ⟨hkeys, hvalues⟩
      rw [List.map_eq_nil_iff.mp hkeys.symm, List.map_eq_nil_iff.mp hvalues.symm]
  | cons entry rest ih =>
    obtain ⟨shown, key⟩ := entry
    rw [List.length_cons] at hlength
    have hlt : index < values.length := by omega
    have hvalue : values[index]? = some values[index] := List.getElem?_eq_getElem hlt
    have hnext : index + 1 + rest.length = values.length := by omega
    rw [collectPairs, hvalue, List.drop_eq_getElem_cons hlt, List.map_cons]
    constructor
    · intro hok
      obtain ⟨first, hfirst, hok'⟩ := bind_eq_ok hok
      obtain ⟨second, hsecond, hok''⟩ := bind_eq_ok hok'
      obtain ⟨more, hcollect, hdone⟩ := bind_eq_ok hok''
      cases hdone
      obtain ⟨hkeys, hvalues⟩ := (ih hnext).mp hcollect
      rw [mapError_eq_ok hfirst, mapError_eq_ok hsecond, hkeys, hvalues]
      exact ⟨rfl, rfl⟩
    · rintro ⟨hkeys, hvalues⟩
      cases ks with
      | nil => cases hkeys
      | cons first ks =>
        cases vs with
        | nil => cases hvalues
        | cons second vs =>
          obtain ⟨rfl, hrestKeys⟩ := List.cons_eq_cons.mp hkeys
          obtain ⟨hsecond, hrestValues⟩ := List.cons_eq_cons.mp hvalues
          rw [hsecond]
          show (do
            let more ← collectPairs values (index + 1) rest
            return (first :: more.1, second :: more.2)) = _
          rw [(ih hnext).mpr ⟨hrestKeys, hrestValues⟩]
          rfl

/-- Several data are encoded when each of them is. -/
theorem map_ofDatum_eq_iff {depth : Nat} {ds : List Datum} {P : Datum → Prop}
    (hds : ∀ d ∈ ds, ∀ r, Record.ofDatum depth d = .ok r ↔ P d ∧ r = recordOf d)
    (records : List Record) :
    ds.map (Record.ofDatum depth) = records.map .ok ↔ (∀ d ∈ ds, P d) ∧ records = recordsOf ds := by
  induction ds generalizing records with
  | nil => simp [recordsOf, eq_comm]
  | cons d rest ih =>
    have hrest := ih fun d hd => hds d (List.mem_cons_of_mem _ hd)
    cases records with
    | nil => simp [recordsOf]
    | cons record more =>
      rw [List.map_cons, List.map_cons, List.cons_eq_cons, hrest, hds d List.mem_cons_self,
        recordsOf, List.cons_eq_cons, List.forall_mem_cons]
      exact and_and_and_comm

theorem ofDatum_scalar_iff {d : Datum} {depth : Nat}
    (hok : Record.ofDatum depth d = .ok (recordOf d)) (he : d.isEncodable = true)
    (hd : d.depth = 0) (r : Record) :
    Record.ofDatum depth d = .ok r ↔
      (d.isEncodable = true ∧ d.depth ≤ maxDepth - depth) ∧ r = recordOf d := by
  rw [hok, Except.ok.injEq, hd]
  exact ⟨fun h => ⟨⟨he, Nat.zero_le _⟩, h.symm⟩, fun h => h.2.symm⟩

/-- **Which data have a record**, and which record it is. -/
theorem ofDatum_eq_ok_iff {d : Datum} (hb : d.isBalanced = true) (depth : Nat) (r : Record) :
    Record.ofDatum depth d = .ok r ↔
      (d.isEncodable = true ∧ d.depth ≤ maxDepth - depth) ∧ r = recordOf d := by
  induction d using Datum.treeInduction generalizing depth r with
  | nil => exact ofDatum_scalar_iff rfl rfl rfl r
  | boolean b => exact ofDatum_scalar_iff rfl rfl rfl r
  | number x => exact ofDatum_scalar_iff rfl rfl rfl r
  | string s => exact ofDatum_scalar_iff rfl rfl rfl r
  | function f => exact ⟨fun h => (by cases h), fun h => (by cases h.1.1)⟩
  | hollow =>
    -- It fails either way: too deep, or without contents.
    refine ⟨fun h => ?_, fun h => by cases h.1.1⟩
    rw [Record.ofDatum] at h
    split at h <;> cases h
  | list capacity items ih =>
    rw [Datum.isBalanced_list_iff] at hb
    have hitems := map_ofDatum_eq_iff fun d hd => ih d hd (hb d hd) (depth + 1)
    rw [Record.ofDatum, ofData_eq_map, Datum.isEncodable, Datum.every_list_iff,
      Datum.depth_list_le_iff]
    constructor
    · intro hok
      split at hok
      · cases hok
      · obtain ⟨records, hcollect, hdone⟩ := bind_eq_ok hok
        cases hdone
        obtain ⟨hall, rfl⟩ := (hitems records).mp (collectItems_eq_ok_iff.mp hcollect)
        exact ⟨⟨⟨rfl, fun d hd => (hall d hd).1⟩, by omega, fun d hd => (hall d hd).2⟩, rfl⟩
    · rintro ⟨⟨⟨-, hall⟩, hpos, hdepths⟩, rfl⟩
      rw [if_neg (by omega), collectItems_eq_ok_iff.mpr
        ((hitems _).mpr ⟨fun d hd => ⟨hall d hd, hdepths d hd⟩, rfl⟩)]
      rfl
  | object capacity keys values ihk ihv =>
    obtain ⟨hsizes, hbk, hbv⟩ := (Datum.isBalanced_object_iff capacity keys values).mp hb
    have hkeys := map_ofDatum_eq_iff fun d hd => ihk d hd (hbk d hd) (depth + 1)
    have hvalues := map_ofDatum_eq_iff fun d hd => ihv d hd (hbv d hd) (depth + 1)
    -- The texts of the keys only serve the messages and drop out.
    have hcollect : ∀ ks vs, collectPairs (values.map (Record.ofDatum (depth + 1))) 0
        ((keys.map fun key => keyText key.text).zip (keys.map (Record.ofDatum (depth + 1)))) =
          .ok (ks, vs) ↔ keys.map (Record.ofDatum (depth + 1)) = ks.map .ok ∧
            values.map (Record.ofDatum (depth + 1)) = vs.map .ok := by
      intro ks vs
      rw [collectPairs_eq_ok_iff (by simp [hsizes]), List.map_snd_zip (by simp), List.drop_zero]
    rw [Record.ofDatum, ofData_eq_map, ofData_eq_map, Datum.isEncodable, Datum.every_object_iff,
      Datum.depth_object_le_iff]
    constructor
    · intro hok
      split at hok
      · cases hok
      · obtain ⟨⟨ks, vs⟩, hpairs, hdone⟩ := bind_eq_ok hok
        cases hdone
        obtain ⟨hks, hvs⟩ := (hcollect ks vs).mp hpairs
        obtain ⟨hallk, rfl⟩ := (hkeys ks).mp hks
        obtain ⟨hallv, rfl⟩ := (hvalues vs).mp hvs
        exact ⟨⟨⟨rfl, fun d hd => (hallk d hd).1, fun d hd => (hallv d hd).1⟩, by omega,
          fun d hd => (hallk d hd).2, fun d hd => (hallv d hd).2⟩, rfl⟩
    · rintro ⟨⟨⟨-, hallk, hallv⟩, hpos, hdk, hdv⟩, rfl⟩
      have hks := (hkeys _).mpr ⟨fun d hd => ⟨hallk d hd, hdk d hd⟩, rfl⟩
      have hvs := (hvalues _).mpr ⟨fun d hd => ⟨hallv d hd, hdv d hd⟩, rfl⟩
      simp only [if_neg (show ¬maxDepth ≤ depth by omega), (hcollect _ _).mpr ⟨hks, hvs⟩]
      rfl

/-- **Which data are encoded**, and as which bytes. -/
theorem encode_eq_ok_iff {d : Datum} (hb : d.isBalanced = true) (bytes : Bytes) :
    encode d = .ok bytes ↔
      (d.isEncodable = true ∧ d.depth ≤ maxDepth) ∧ bytes = (recordOf d).toItem.write := by
  have hrecord := ofDatum_eq_ok_iff hb 0
  constructor
  · intro hok
    obtain ⟨r, hr, hdone⟩ := bind_eq_ok hok
    cases hdone
    obtain ⟨hd, rfl⟩ := (hrecord r).mp hr
    exact ⟨hd, rfl⟩
  · rintro ⟨hd, rfl⟩
    rw [encode, (hrecord _).mpr ⟨hd, rfl⟩]
    rfl

/-! ## What the records of data are like -/

theorem mem_recordsOf {ds : List Datum} {r : Record} (hr : r ∈ recordsOf ds) :
    ∃ d ∈ ds, recordOf d = r := by
  rw [recordsOf_eq_map] at hr
  exact List.mem_map.mp hr

theorem length_recordsOf (ds : List Datum) : (recordsOf ds).length = ds.length := by
  rw [recordsOf_eq_map, List.length_map]

theorem kind_recordOf_lt (d : Datum) : (recordOf d).kind < 256 := by
  cases d <;> simp [recordOf, kindRecord, Kind.code]

theorem text_recordOf_lt {d : Datum} (hs : d.isSized = true) :
    (recordOf d).text.length < lengthLimit := by
  cases d with
  | string s => exact of_decide_eq_true (p := s.length < lengthLimit) hs
  | _ => exact (show 0 < lengthLimit by decide)

/-- A record without parts is plain at any level. -/
theorem plain_scalar {r : Record} (hkind : r.kind < 256) (htext : r.text.length < lengthLimit)
    (hitems : r.items = []) (hkeys : r.keys = []) (levels : Nat) : r.Plain (levels + 1) := by
  refine .record hkind htext (by rw [hitems]; decide) (by rw [hkeys]; decide) ?_
  intro part hpart
  rw [hitems, hkeys] at hpart
  cases hpart

theorem plain_recordOf {d : Datum} (hb : d.isBalanced = true) (hs : d.isSized = true)
    {levels : Nat} (hd : d.depth ≤ levels) : (recordOf d).Plain (levels + 1) := by
  induction d using Datum.treeInduction generalizing levels with
  | list capacity items ih =>
    rw [Datum.isBalanced_list_iff] at hb
    obtain ⟨hlength, hsized⟩ := (Datum.every_list_iff _ _ _).mp hs
    obtain ⟨hpos, hdepths⟩ := (Datum.depth_list_le_iff _ _ _).mp hd
    obtain ⟨less, rfl⟩ : ∃ less, levels = less + 1 := ⟨levels - 1, by omega⟩
    refine .record (kind_recordOf_lt _) (text_recordOf_lt hs) ?_ (show 0 < lengthLimit by decide) ?_
    · show (recordsOf items).length < lengthLimit
      rw [length_recordsOf]
      exact of_decide_eq_true hlength
    · intro part hpart
      rcases List.mem_append.mp hpart with hin | hin
      · obtain ⟨d, hd, rfl⟩ := mem_recordsOf hin
        exact ih d hd (hb d hd) (hsized d hd) (hdepths d hd)
      · cases hin
  | object capacity keys values ihk ihv =>
    obtain ⟨hsizes, hbk, hbv⟩ := (Datum.isBalanced_object_iff capacity keys values).mp hb
    obtain ⟨hlength, hsk, hsv⟩ := (Datum.every_object_iff _ _ _ _).mp hs
    obtain ⟨hpos, hdk, hdv⟩ := (Datum.depth_object_le_iff _ _ _ _).mp hd
    obtain ⟨less, rfl⟩ : ∃ less, levels = less + 1 := ⟨levels - 1, by omega⟩
    have hlimit : keys.length < lengthLimit := of_decide_eq_true hlength
    refine .record (kind_recordOf_lt _) (text_recordOf_lt hs) ?_ ?_ ?_
    · show (recordsOf values).length < lengthLimit
      rw [length_recordsOf, ← hsizes]
      exact hlimit
    · show (recordsOf keys).length < lengthLimit
      rw [length_recordsOf]
      exact hlimit
    · intro part hpart
      rcases List.mem_append.mp hpart with hin | hin
      · obtain ⟨d, hd, rfl⟩ := mem_recordsOf hin
        exact ihv d hd (hbv d hd) (hsv d hd) (hdv d hd)
      · obtain ⟨d, hd, rfl⟩ := mem_recordsOf hin
        exact ihk d hd (hbk d hd) (hsk d hd) (hdk d hd)
  | _ => exact plain_scalar (kind_recordOf_lt _) (text_recordOf_lt hs) rfl rfl levels

/-- A condition on the records of several data is one on the data. -/
theorem everyRecord_recordsOf {p : Record → Bool} {q : Datum → Bool} {ds : List Datum}
    (hds : ∀ d ∈ ds, (recordOf d).every p = d.every q) :
    everyRecord p (recordsOf ds) = Datum.everyOf q ds := by
  induction ds with
  | nil => rfl
  | cons d rest ih =>
    rw [recordsOf, everyRecord, Datum.everyOf, hds d List.mem_cons_self,
      ih fun d hd => hds d (List.mem_cons_of_mem _ hd)]

theorem isUtf8_recordOf (d : Datum) : (recordOf d).isUtf8 = d.isUtf8 := by
  induction d using Datum.treeInduction with
  | list capacity items ih =>
    have hitems := everyRecord_recordsOf ih
    rw [Record.isUtf8, Record.every_eq, Datum.isUtf8, Datum.every]
    show (true && everyRecord _ (recordsOf items) && true) = _
    rw [hitems, Bool.and_true]
  | object capacity keys values ihk ihv =>
    have hkeys := everyRecord_recordsOf ihk
    have hvalues := everyRecord_recordsOf ihv
    rw [Record.isUtf8, Record.every_eq, Datum.isUtf8, Datum.every]
    show (true && everyRecord _ (recordsOf values) && everyRecord _ (recordsOf keys)) = _
    rw [hkeys, hvalues, Bool.and_right_comm]
  | string s =>
    rw [Record.isUtf8, Record.every_eq]
    exact (Bool.and_true _).trans (Bool.and_true _)
  | _ => rfl

theorem fits_recordOf {d : Datum} (hb : d.isBalanced = true) : (recordOf d).fits = d.fits := by
  induction d using Datum.treeInduction with
  | list capacity items ih =>
    rw [Datum.isBalanced_list_iff] at hb
    have hitems := everyRecord_recordsOf fun d hd => ih d hd (hb d hd)
    rw [Record.fits, Record.every_eq, Datum.fits, Datum.every]
    show (decide ((recordsOf items).length ≤ maxCount) && true && everyRecord _ (recordsOf items)
      && true) = _
    rw [hitems, length_recordsOf, Bool.and_true, Bool.and_true]
  | object capacity keys values ihk ihv =>
    obtain ⟨hsizes, hbk, hbv⟩ := (Datum.isBalanced_object_iff capacity keys values).mp hb
    have hkeys := everyRecord_recordsOf fun d hd => ihk d hd (hbk d hd)
    have hvalues := everyRecord_recordsOf fun d hd => ihv d hd (hbv d hd)
    rw [Record.fits, Record.every_eq, Datum.fits, Datum.every]
    show (decide ((recordsOf values).length ≤ maxCount) && decide ((recordsOf keys).length ≤ maxCount)
      && everyRecord _ (recordsOf values) && everyRecord _ (recordsOf keys)) = _
    -- Values are counted as well, and there are as many of them as keys.
    rw [hkeys, hvalues, length_recordsOf, length_recordsOf, ← hsizes, Bool.and_self,
      Bool.and_right_comm]
  | _ => rfl

/-! ## What decoding gives back -/

/-- The entries with several pairs stored one after the other. -/
def Entries.storeAll (entries : Entries) (pairs : List (Datum × Datum)) : Entries :=
  pairs.foldl (fun entries pair => entries.store pair.1 pair.2) entries

mutual

/-- **The datum that comes back** when a datum was encoded and is decoded: its lists have the
    room that appending item by item leaves, and so have its objects. Of equal keys only one
    comes back. -/
def rebuilt : Datum → Datum
  | .list _ items => .list (capacityAfter defaultCapacity 0 items.length) (rebuiltAll items)
  | .object _ keys values =>
    (Entries.storeAll ⟨[], []⟩ ((rebuiltAll keys).zip (rebuiltAll values))).toDatum
  | d => d

/-- What comes back of several data. -/
def rebuiltAll : List Datum → List Datum
  | [] => []
  | d :: rest => rebuilt d :: rebuiltAll rest

end

theorem rebuiltAll_eq_map (ds : List Datum) : rebuiltAll ds = ds.map rebuilt := by
  induction ds with
  | nil => rfl
  | cons d rest ih => rw [rebuiltAll, ih, List.map_cons]

theorem length_rebuiltAll (ds : List Datum) : (rebuiltAll ds).length = ds.length := by
  rw [rebuiltAll_eq_map, List.length_map]

theorem collectData_ok (index : Nat) (ds : List Datum) :
    collectData index (ds.map .ok) = .ok ds := by
  induction ds generalizing index with
  | nil => rfl
  | cons d rest ih =>
    show (do
      let more ← collectData (index + 1) (rest.map .ok)
      return d :: more) = _
    rw [ih]
    rfl

theorem collectEntries_ok (entries : Entries) (index : Nat) (keys values : List Datum) :
    collectEntries entries index ((keys.map .ok).zip (values.map .ok)) =
      .ok (entries.storeAll (keys.zip values)) := by
  induction keys generalizing entries index values with
  | nil => rfl
  | cons key rest ih =>
    cases values with
    | nil => rfl
    | cons value more => exact ih (entries.store key value) (index + 1) more

theorem toData_recordsOf {ds : List Datum}
    (hds : ∀ d ∈ ds, (recordOf d).toDatum = .ok (rebuilt d)) :
    toData (recordsOf ds) = (rebuiltAll ds).map .ok := by
  rw [toData_eq_map, recordsOf_eq_map, rebuiltAll_eq_map, List.map_map, List.map_map]
  exact List.map_congr_left hds

/-- **The datum of a datum's record.** -/
theorem toDatum_recordOf {d : Datum} (hb : d.isBalanced = true) (he : d.isEncodable = true) :
    (recordOf d).toDatum = .ok (rebuilt d) := by
  induction d using Datum.treeInduction with
  | list capacity items ih =>
    rw [Datum.isBalanced_list_iff] at hb
    obtain ⟨-, hitems⟩ := (Datum.every_list_iff _ _ _).mp he
    have hdata := toData_recordsOf fun d hd => ih d hd (hb d hd) (hitems d hd)
    show (do
      let data ← collectData 0 (toData (recordsOf items))
      return Datum.list (capacityAfter defaultCapacity 0 data.length) data) = _
    rw [hdata, collectData_ok, rebuilt, ← length_rebuiltAll]
    rfl
  | object capacity keys values ihk ihv =>
    obtain ⟨hsizes, hbk, hbv⟩ := (Datum.isBalanced_object_iff capacity keys values).mp hb
    obtain ⟨-, hek, hev⟩ := (Datum.every_object_iff _ _ _ _).mp he
    have hkeys := toData_recordsOf fun d hd => ihk d hd (hbk d hd) (hek d hd)
    have hvalues := toData_recordsOf fun d hd => ihv d hd (hbv d hd) (hev d hd)
    have hcounts : ¬(recordsOf keys).length ≠ (recordsOf values).length := by
      rw [length_recordsOf, length_recordsOf, hsizes]
      exact fun hne => hne rfl
    show (if (recordsOf keys).length ≠ (recordsOf values).length then _ else do
      let entries ← collectEntries ⟨[], []⟩ 0 ((toData (recordsOf keys)).zip
        (toData (recordsOf values)))
      return entries.toDatum) = _
    rw [if_neg hcounts, hkeys, hvalues, collectEntries_ok]
    rfl
  | function f => cases he
  | hollow => cases he
  | _ => rfl

/-- A key that no key before it equals is appended. -/
theorem Entries.store_of_new {entries : Entries} {key : Datum}
    (hnew : ∀ old ∈ entries.keys, old.equal key = false) (value : Datum) :
    entries.store key value = ⟨entries.keys ++ [key], entries.values ++ [value]⟩ := by
  have hnone : entries.keys.findIdx? (·.equal key) = none := by
    rw [List.findIdx?_eq_none_iff]
    exact hnew
  rw [Entries.store, hnone]

theorem Entries.storeAll_of_distinct {entries : Entries} {keys values : List Datum}
    (hlength : keys.length = values.length)
    (hnew : ∀ old ∈ entries.keys, ∀ key ∈ keys, old.equal key = false)
    (hdistinct : keys.Pairwise fun a b => a.equal b = false) :
    entries.storeAll (keys.zip values) = ⟨entries.keys ++ keys, entries.values ++ values⟩ := by
  induction keys generalizing entries values with
  | nil =>
    cases values with
    | nil => rw [List.append_nil, List.append_nil]; rfl
    | cons value more => cases hlength
  | cons key rest ih =>
    cases values with
    | nil => cases hlength
    | cons value more =>
      obtain ⟨hfirst, hrest⟩ := List.pairwise_cons.mp hdistinct
      have hstore := Entries.store_of_new (fun old hold => hnew old hold key List.mem_cons_self) value
      show (entries.store key value).storeAll (rest.zip more) = _
      rw [hstore, ih (Nat.succ.inj hlength) _ hrest, List.append_assoc, List.append_assoc]
      · rfl
      · -- The key just stored is one of the old ones for the keys after it.
        intro old hold other hother
        rcases List.mem_append.mp hold with hold | hold
        · exact hnew old hold other (List.mem_cons_of_mem _ hother)
        · rw [List.mem_singleton.mp hold]
          exact hfirst other hother

theorem trees_rebuiltAll {ds : List Datum} (hds : ∀ d ∈ ds, (rebuilt d).tree = d.tree) :
    Datum.trees (rebuiltAll ds) = Datum.trees ds := by
  rw [Datum.trees_eq_map, Datum.trees_eq_map, rebuiltAll_eq_map, List.map_map]
  exact List.map_congr_left hds

/-- **When no two keys are equal, the tree comes back.** -/
theorem tree_rebuilt {d : Datum} (hb : d.isBalanced = true) (hk : d.hasDistinctKeys = true) :
    (rebuilt d).tree = d.tree := by
  induction d using Datum.treeInduction with
  | list capacity items ih =>
    rw [Datum.isBalanced_list_iff] at hb
    obtain ⟨-, hitems⟩ := (Datum.every_list_iff _ _ _).mp hk
    rw [rebuilt, Datum.tree, Datum.tree,
      trees_rebuiltAll fun d hd => ih d hd (hb d hd) (hitems d hd)]
  | object capacity keys values ihk ihv =>
    obtain ⟨hsizes, hbk, hbv⟩ := (Datum.isBalanced_object_iff capacity keys values).mp hb
    obtain ⟨hpairwise, hkk, hkv⟩ := (Datum.every_object_iff _ _ _ _).mp hk
    have hkeys := fun d hd => ihk d hd (hbk d hd) (hkk d hd)
    have hvalues := fun d hd => ihv d hd (hbv d hd) (hkv d hd)
    -- What comes back of two keys is equal only if they were.
    have hdistinct : (rebuiltAll keys).Pairwise fun a b => a.equal b = false := by
      rw [rebuiltAll_eq_map, List.pairwise_map]
      refine (of_decide_eq_true hpairwise).imp_of_mem ?_
      intro a b ha hb hab
      rw [← Datum.equal_tree, hkeys a ha, hkeys b hb, Datum.equal_tree]
      exact hab
    have hlength : (rebuiltAll keys).length = (rebuiltAll values).length := by
      rw [length_rebuiltAll, length_rebuiltAll, hsizes]
    rw [rebuilt, Entries.storeAll_of_distinct hlength (fun old hold => by cases hold) hdistinct,
      Entries.toDatum, Datum.tree, Datum.tree]
    show Datum.object 0 (Datum.trees (rebuiltAll keys)) (Datum.trees (rebuiltAll values)) = _
    rw [trees_rebuiltAll hkeys, trees_rebuiltAll hvalues]
  | _ => rfl

end Codec

end ValueRuntime
