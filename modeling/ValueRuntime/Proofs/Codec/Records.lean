import ValueRuntime.Codec.Decode
import ValueRuntime.Proofs.Codec.Items
import ValueRuntime.Proofs.Datum.Balance

/-! # Records read back

    The item of a record is a map of the fields that are written. Reading such a map gives
    each field its content in turn, and the fields that were left out stay empty, so the
    record comes back. The one thing that may be in the way is a text that is not UTF-8.
-/

namespace ValueRuntime.Codec

/-! ## Records in records -/

/-- Induction over a record: it may use the claim for the records in it. -/
theorem Record.treeInduction {motive : Record → Prop}
    (record : ∀ kind flag number text items keys, (∀ r ∈ items, motive r) →
      (∀ r ∈ keys, motive r) → motive ⟨kind, flag, number, text, items, keys⟩)
    (r : Record) : motive r := by
  refine @Record.rec motive (fun rs => ∀ r ∈ rs, motive r) record ?_ ?_ r
  · intro r hr
    cases hr
  · intro first rest hfirst hrest r hr
    rcases List.mem_cons.mp hr with rfl | hr'
    · exact hfirst
    · exact hrest r hr'

theorem toData_eq_map (records : List Record) : toData records = records.map Record.toDatum := by
  induction records with
  | nil => rfl
  | cons record rest ih => rw [toData, ih, List.map_cons]

/-! ## Fields -/

namespace Field

/-- The key of a field in the map. -/
def code : Field → Nat
  | .kind => 1
  | .flag => 2
  | .number => 3
  | .text => 4
  | .items => 5
  | .keys => 6

/-- A record with one field read from an item. -/
def read (record : Record) (content : Item) : Field → Except Malformed Record
  | .kind => do return { record with kind := ← readKind content }
  | .flag => do return { record with flag := ← readFlag content }
  | .number => do return { record with number := ← readNumber content }
  | .text => do return { record with text := ← readText content }
  | .items => do return { record with items := ← readRecords content }
  | .keys => do return { record with keys := ← readRecords content }

/-- A record with several fields read from their contents, one after the other. -/
def readAll (record : Record) (fields : List (Field × Item)) : Except Malformed Record :=
  fields.foldlM (fun record entry => entry.1.read record entry.2) record

/-- Fields with their contents, as keys and values of a map. -/
def entries : List (Field × Item) → List Item
  | [] => []
  | (field, content) :: rest => .unsigned field.code :: content :: entries rest

/-- A field that is only written when a condition holds. -/
def written (field : Field) (present : Bool) (content : Item) : List (Field × Item) :=
  if present then [(field, content)] else []

theorem readAll_append (record : Record) (fields more : List (Field × Item)) :
    readAll record (fields ++ more) = readAll record fields >>= (readAll · more) :=
  List.foldlM_append

theorem readAll_append_of_ok {record record' : Record} {fields : List (Field × Item)}
    (hok : readAll record fields = .ok record') (more : List (Field × Item)) :
    readAll record (fields ++ more) = readAll record' more := by
  rw [readAll_append, hok]
  rfl

/-- A field that is left out has nothing to change. -/
theorem readAll_written {field : Field} {present : Bool} {content : Item} {record : Record}
    {result : Except Malformed Record} (hpresent : present = true → field.read record content = result)
    (habsent : present = false → result = .ok record) :
    readAll record (written field present content) = result := by
  cases present with
  | false => rw [habsent rfl]; rfl
  | true =>
    rw [← hpresent rfl]
    exact List.foldlM_cons.trans (bind_pure _)

theorem entries_append (fields more : List (Field × Item)) :
    entries (fields ++ more) = entries fields ++ entries more := by
  induction fields with
  | nil => rfl
  | cons entry rest ih =>
    obtain ⟨field, content⟩ := entry
    rw [List.cons_append, entries, entries, ih]
    rfl

theorem entries_written (field : Field) (present : Bool) (content : Item) :
    entries (written field present content) = optionalField field.code present content := by
  cases present <;> rfl

theorem written_sublist (field : Field) (present : Bool) (content : Item) :
    ((written field present content).map Prod.fst).Sublist [field] := by
  cases present with
  | false => exact List.nil_sublist _
  | true => exact List.Sublist.refl _

theorem length_entries (fields : List (Field × Item)) :
    (entries fields).length = 2 * fields.length := by
  induction fields with
  | nil => rfl
  | cons entry rest ih =>
    rw [entries, List.length_cons, List.length_cons, List.length_cons, ih]
    omega

theorem mem_entries {fields : List (Field × Item)} {item : Item} (hitem : item ∈ entries fields) :
    ∃ entry ∈ fields, item = .unsigned entry.1.code ∨ item = entry.2 := by
  induction fields with
  | nil => cases hitem
  | cons entry rest ih =>
    rw [entries, List.mem_cons, List.mem_cons] at hitem
    rcases hitem with rfl | rfl | hrest
    · exact ⟨entry, List.mem_cons_self, Or.inl rfl⟩
    · exact ⟨entry, List.mem_cons_self, Or.inr rfl⟩
    · obtain ⟨found, hfound, hitem⟩ := ih hrest
      exact ⟨found, List.mem_cons_of_mem _ hfound, hitem⟩

end Field

/-- A field that was not seen before takes its content. -/
theorem readFields_cons {sofar : PartialRecord} {field : Field} (hnew : field ∉ sofar.seen)
    (content : Item) (rest : List Item) :
    readFields sofar (.unsigned field.code :: content :: rest) =
      field.read sofar.record content >>= fun record =>
        readFields ⟨record, field :: sofar.seen⟩ rest := by
  have hseen : sofar.seen.contains field = false := by simpa using hnew
  have hkey : Field.ofKey (.unsigned field.code) = .ok (some field) := by cases field <;> rfl
  rw [readFields, hkey]
  show (if sofar.seen.contains field = true then _ else _) = _
  rw [hseen]
  cases field <;> simp only [Field.read, bind_assoc, pure_bind, Bool.false_eq_true, if_false]

/-- **Fields that are all different** are read one after the other. -/
theorem readFields_entries {sofar : PartialRecord} {fields : List (Field × Item)}
    (hnodup : (fields.map Prod.fst).Nodup)
    (hnew : ∀ field ∈ fields.map Prod.fst, field ∉ sofar.seen) :
    (do return (← readFields sofar (Field.entries fields)).record) =
      Field.readAll sofar.record fields := by
  induction fields generalizing sofar with
  | nil =>
    simp only [Field.entries, readFields]
    rfl
  | cons entry rest ih =>
    obtain ⟨field, content⟩ := entry
    rw [List.map_cons, List.nodup_cons] at hnodup
    rw [Field.entries, readFields_cons (hnew field List.mem_cons_self), Field.readAll,
      List.foldlM_cons]
    cases field.read sofar.record content with
    | error e => rfl
    | ok record =>
      -- The field just read joins the ones seen, and does not come again.
      refine ih hnodup.2 ?_
      intro other hother hseen
      rcases List.mem_cons.mp hseen with rfl | hseen
      · exact hnodup.1 hother
      · exact hnew other (List.mem_cons_of_mem _ hother) hseen

/-! ## The fields of a record -/

namespace Record

/-- The fields of a record that are written. -/
def fields (r : Record) : List (Field × Item) :=
  Field.written .kind true (.unsigned r.kind)
    ++ Field.written .flag r.flag (.simple 21)
    ++ Field.written .number true (.float r.number)
    ++ Field.written .text (!r.text.isEmpty) (.text [r.text])
    ++ Field.written .items (!r.items.isEmpty) (.array (toItems r.items))
    ++ Field.written .keys (!r.keys.isEmpty) (.array (toItems r.keys))

theorem toItem_eq (r : Record) : r.toItem = .map (Field.entries r.fields) := by
  obtain ⟨kind, flag, number, text, items, keys⟩ := r
  simp only [toItem, fields, Field.entries_append, Field.entries_written]
  rfl

/-- The fields come in the order of their keys. -/
theorem fields_sublist (r : Record) :
    (r.fields.map Prod.fst).Sublist [.kind, .flag, .number, .text, .items, .keys] := by
  simp only [fields, List.map_append]
  exact (((((Field.written_sublist ..).append (Field.written_sublist ..)).append
    (Field.written_sublist ..)).append (Field.written_sublist ..)).append
    (Field.written_sublist ..)).append (Field.written_sublist ..)

theorem ofItem_toItem_eq (r : Record) :
    ofItem r.toItem = Field.readAll .empty r.fields := by
  rw [toItem_eq, ofItem]
  exact readFields_entries (r.fields_sublist.nodup (by decide))
    fun field hfield hseen => by cases hseen

end Record

theorem toItems_eq_map (records : List Record) : toItems records = records.map Record.toItem := by
  induction records with
  | nil => rfl
  | cons record rest ih => rw [toItems, ih, List.map_cons]

/-! ## Conditions on everything in a record -/

mutual

/-- Whether a condition holds of a record and of all records in it. -/
def Record.every (p : Record → Bool) : Record → Bool
  | ⟨kind, flag, number, text, items, keys⟩ =>
    p ⟨kind, flag, number, text, items, keys⟩ && everyRecord p items && everyRecord p keys

/-- Whether a condition holds of everything in each record. -/
def everyRecord (p : Record → Bool) : List Record → Bool
  | [] => true
  | record :: rest => record.every p && everyRecord p rest

end

theorem Record.every_eq (p : Record → Bool) (r : Record) :
    r.every p = (p r && everyRecord p r.items && everyRecord p r.keys) := by
  obtain ⟨kind, flag, number, text, items, keys⟩ := r
  rw [every]

/-- Whether every text is valid UTF-8. -/
def Record.isUtf8 : Record → Bool := Record.every fun r => Utf8.isValid r.text

/-- Whether every text in several records is valid UTF-8. -/
def allUtf8 : List Record → Bool := everyRecord fun r => Utf8.isValid r.text

/-- Whether no list of items or keys is longer than what is read. -/
def Record.fits : Record → Bool :=
  Record.every fun r => decide (r.items.length ≤ maxCount) && decide (r.keys.length ≤ maxCount)

/-- **A plain record** with at most `levels` levels of records: its kind is a byte, and all its
    lengths have a head of their own. -/
inductive Record.Plain : (levels : Nat) → Record → Prop where
  | record {levels : Nat} {r : Record} (hkind : r.kind < 256) (htext : r.text.length < lengthLimit)
      (hitems : r.items.length < lengthLimit) (hkeys : r.keys.length < lengthLimit)
      (hparts : ∀ part ∈ r.items ++ r.keys, Plain levels part) : Plain (levels + 1) r

/-! ## Reading records -/

section

variable (kind : Nat) (flag : Bool) (number : Number) (text : Bytes)

theorem readAll_kind (hkind : kind < 256) :
    Field.readAll .empty (Field.written .kind true (.unsigned kind)) =
      .ok ⟨kind, false, .zero false, [], [], []⟩ := by
  refine Field.readAll_written (fun _ => ?_) (fun habsent => by cases habsent)
  simp only [Field.read, readKind, untagged]
  show (do return { Record.empty with kind := ← (if kind < 256 then _ else _) }) = _
  rw [if_pos hkind]
  rfl

theorem readAll_flag :
    Field.readAll ⟨kind, false, .zero false, [], [], []⟩ (Field.written .flag flag (.simple 21)) =
      .ok ⟨kind, flag, .zero false, [], [], []⟩ := by
  refine Field.readAll_written (fun hpresent => ?_) (fun habsent => ?_)
  · rw [hpresent]
    rfl
  · rw [habsent]

theorem readAll_number :
    Field.readAll ⟨kind, flag, .zero false, [], [], []⟩
      (Field.written .number true (.float number)) = .ok ⟨kind, flag, number, [], [], []⟩ :=
  Field.readAll_written (fun _ => rfl) (fun habsent => by cases habsent)

theorem readAll_text :
    Field.readAll ⟨kind, flag, number, [], [], []⟩
        (Field.written .text (!text.isEmpty) (.text [text])) =
      if Utf8.isValid text then .ok ⟨kind, flag, number, text, [], []⟩ else .error .notUtf8 := by
  refine Field.readAll_written (fun _ => ?_) (fun habsent => ?_)
  · simp only [Field.read, readText, untagged]
    show (do
      let joined ← joinText [text]
      return (⟨kind, flag, number, joined, [], []⟩ : Record)) = _
    rw [joinText, List.all_cons, List.all_nil, Bool.and_true, List.flatten_singleton]
    cases Utf8.isValid text <;> rfl
  · obtain rfl : text = [] := by simpa using habsent
    rfl

end

/-- A field of records, given by what it does to a record that has none there. -/
theorem readAll_parts (field : Field) (fill : List Record → Record)
    (hfill : ∀ content, field.read (fill []) content = do return fill (← readRecords content))
    {parts : List Record}
    (hread : ofItems (toItems parts) = if allUtf8 parts then .ok parts else .error .notUtf8) :
    Field.readAll (fill []) (Field.written field (!parts.isEmpty) (.array (toItems parts))) =
      if allUtf8 parts then .ok (fill parts) else .error .notUtf8 := by
  refine Field.readAll_written (fun _ => ?_) (fun habsent => ?_)
  · rw [hfill, readRecords, hread]
    cases allUtf8 parts <;> rfl
  · obtain rfl : parts = [] := by simpa using habsent
    rfl

theorem ofItems_toItems {records : List Record}
    (hread : ∀ r ∈ records, Record.ofItem r.toItem = if r.isUtf8 then .ok r else .error .notUtf8) :
    ofItems (toItems records) = if allUtf8 records then .ok records else .error .notUtf8 := by
  induction records with
  | nil => rfl
  | cons first rest ih =>
    have hrest := ih fun r hr => hread r (List.mem_cons_of_mem _ hr)
    have hall : allUtf8 (first :: rest) = (first.isUtf8 && allUtf8 rest) := rfl
    rw [toItems, ofItems, hread first List.mem_cons_self, hrest, hall]
    cases first.isUtf8 with
    | false => rfl
    | true => cases allUtf8 rest <;> rfl

/-- **A record is read back** from its item. -/
theorem Record.Plain.ofItem_toItem {levels : Nat} {r : Record} (hp : r.Plain levels) :
    Record.ofItem r.toItem = if r.isUtf8 then .ok r else .error .notUtf8 := by
  induction hp with
  | @record levels r hkind htext hitems hkeys hparts ih =>
    obtain ⟨kind, flag, number, text, items, keys⟩ := r
    have hreadItems := ofItems_toItems fun r hr => ih r (List.mem_append_left keys hr)
    have hreadKeys := ofItems_toItems fun r hr => ih r (List.mem_append_right items hr)
    have hutf8 : Record.isUtf8 ⟨kind, flag, number, text, items, keys⟩ =
        (Utf8.isValid text && allUtf8 items && allUtf8 keys) := Record.every_eq _ _
    rw [Record.ofItem_toItem_eq, Record.fields, hutf8]
    -- The first three fields cannot fail; the other three do so on a text that is not UTF-8.
    simp only [List.append_assoc]
    rw [Field.readAll_append_of_ok (readAll_kind kind hkind),
      Field.readAll_append_of_ok (readAll_flag kind flag),
      Field.readAll_append_of_ok (readAll_number kind flag number), Field.readAll_append,
      readAll_text]
    cases Utf8.isValid text with
    | false => rfl
    | true =>
      show Field.readAll ⟨kind, flag, number, text, [], []⟩ (_ ++ _) = _
      rw [Field.readAll_append, readAll_parts .items
        (fun parts => ⟨kind, flag, number, text, parts, []⟩) (fun _ => rfl) hreadItems]
      cases allUtf8 items with
      | false => rfl
      | true =>
        exact readAll_parts .keys (fun parts => ⟨kind, flag, number, text, items, parts⟩)
          (fun _ => rfl) hreadKeys

/-! ## The items of records -/

/-- What the written fields of a record hold. -/
theorem Record.content_cases {r : Record} {entry : Field × Item} (hentry : entry ∈ r.fields) :
    entry.2 = .unsigned r.kind ∨ entry.2 = .simple 21 ∨ entry.2 = .float r.number ∨
      entry.2 = .text [r.text] ∨
      ∃ parts, (parts = r.items ∨ parts = r.keys) ∧ parts ≠ [] ∧
        entry.2 = .array (toItems parts) := by
  have hcontent : ∀ {field : Field} {present : Bool} {content : Item},
      entry ∈ Field.written field present content → present = true ∧ entry.2 = content := by
    intro field present content hin
    cases present with
    | false => cases hin
    | true => exact ⟨rfl, by rw [List.mem_singleton.mp hin]⟩
  simp only [fields, List.mem_append] at hentry
  rcases hentry with ((((hin | hin) | hin) | hin) | hin) | hin
  · exact Or.inl (hcontent hin).2
  · exact Or.inr (Or.inl (hcontent hin).2)
  · exact Or.inr (Or.inr (Or.inl (hcontent hin).2))
  · exact Or.inr (Or.inr (Or.inr (Or.inl (hcontent hin).2)))
  · obtain ⟨hsome, hitem⟩ := hcontent hin
    exact Or.inr (Or.inr (Or.inr (Or.inr ⟨_, Or.inl rfl, by simpa using hsome, hitem⟩)))
  · obtain ⟨hsome, hitem⟩ := hcontent hin
    exact Or.inr (Or.inr (Or.inr (Or.inr ⟨_, Or.inr rfl, by simpa using hsome, hitem⟩)))

/-- **Two levels for each record**: its map, and the arrays in it. -/
theorem Record.Plain.toItem {levels : Nat} {r : Record} (hp : r.Plain levels) :
    r.toItem.Plain (2 * levels - 1) := by
  induction hp with
  | @record levels r hkind htext hitems hkeys hparts ih =>
    have hcount := r.fields_sublist.length_le
    rw [List.length_map] at hcount
    have hlimit : 6 < lengthLimit := by decide
    simp only [List.length_cons, List.length_nil] at hcount
    rw [Record.toItem_eq]
    show (Item.map (Field.entries r.fields)).Plain (2 * levels + 1)
    refine .map (by rw [Field.length_entries]; omega) (by rw [Field.length_entries]; omega) ?_
    intro item hitem
    obtain ⟨entry, hentry, rfl | rfl⟩ := Field.mem_entries hitem
    · exact .unsigned (by cases entry.1 <;> decide)
    · rcases Record.content_cases hentry with
        hc | hc | hc | hc | ⟨parts, hwhich, hsome, hc⟩ <;> rw [hc]
      · exact .unsigned (Nat.lt_trans hkind (by decide))
      · exact .simple (by decide)
      · exact .float _
      · exact .text htext
      · have hsub : ∀ part ∈ parts, part ∈ r.items ++ r.keys := by
          rcases hwhich with rfl | rfl
          · exact fun part hpart => List.mem_append_left _ hpart
          · exact fun part hpart => List.mem_append_right _ hpart
        have hlength : parts.length < lengthLimit := by
          rcases hwhich with rfl | rfl
          · exact hitems
          · exact hkeys
        -- A record inside another leaves a level for the array it stands in.
        obtain ⟨part, hpart⟩ := List.exists_mem_of_ne_nil parts hsome
        obtain ⟨less, rfl⟩ : ∃ less, levels = less + 1 := by
          cases hparts part (hsub part hpart) with
          | record => exact ⟨_, rfl⟩
        show (Item.array _).Plain (2 * less + 1 + 1)
        refine .array (by rw [toItems_eq_map, List.length_map]; exact hlength) ?_
        intro item hitem
        rw [toItems_eq_map] at hitem
        obtain ⟨part, hpart, rfl⟩ := List.mem_map.mp hitem
        exact ih part (hsub part hpart)

theorem allFit_append (items more : List Item) :
    allFit (items ++ more) = (allFit items && allFit more) := by
  induction items with
  | nil => rfl
  | cons item rest ih => rw [List.cons_append, allFit, allFit, ih, Bool.and_assoc]

theorem allFit_written (field : Field) (present : Bool) (content : Item) :
    allFit (Field.entries (Field.written field present content)) = (!present || content.fits) := by
  cases present with
  | false => rfl
  | true => exact Bool.and_true _

/-- Whether no list of items or keys in several records is longer than what is read. -/
def allRecordsFit : List Record → Bool :=
  everyRecord fun r => decide (r.items.length ≤ maxCount) && decide (r.keys.length ≤ maxCount)

/-- An array of records fits when it is short enough and each record fits. A list without
    records is not written, and fits as well. -/
theorem fits_toItems {parts : List Record} (hfits : ∀ part ∈ parts, part.toItem.fits = part.fits) :
    (!(!parts.isEmpty) || (Item.array (toItems parts)).fits) =
      (decide (parts.length ≤ maxCount) && allRecordsFit parts) := by
  have hall : ∀ records : List Record, (∀ part ∈ records, part.toItem.fits = part.fits) →
      allFit (toItems records) = allRecordsFit records := by
    intro records hrecords
    induction records with
    | nil => rfl
    | cons first rest ih =>
      have hrest := ih fun part hpart => hrecords part (List.mem_cons_of_mem _ hpart)
      rw [toItems, allFit, hrest, hrecords first List.mem_cons_self]
      rfl
  cases parts with
  | nil => rfl
  | cons first rest =>
    rw [Item.fits, hall _ hfits, toItems_eq_map, List.length_map]
    rfl

/-- **The item of a record fits** when the record does. -/
theorem Record.fits_toItem (r : Record) : r.toItem.fits = r.fits := by
  induction r using Record.treeInduction with
  | record kind flag number text items keys ihi ihk =>
    have hcount : (Field.entries (Record.fields ⟨kind, flag, number, text, items, keys⟩)).length / 2 ≤
        maxCount := by
      have hlength := (Record.fields_sublist ⟨kind, flag, number, text, items, keys⟩).length_le
      rw [List.length_map] at hlength
      simp only [List.length_cons, List.length_nil] at hlength
      rw [Field.length_entries]
      unfold maxCount
      omega
    rw [Record.toItem_eq, Item.fits, decide_eq_true hcount, Record.fits, Record.every_eq]
    simp only [Record.fields, Field.entries_append, allFit_append, allFit_written,
      fits_toItems ihi, fits_toItems ihk]
    simp only [Item.fits, Bool.or_true, Bool.true_and, allRecordsFit, Bool.and_assoc]
    -- The item has the conditions list by list, the record the two lengths first.
    congr 1
    exact Bool.and_left_comm _ _ _

/-- **Decoding a record** from its bytes: the limits on counts come first, then the texts, then
    the datum of the record. -/
theorem Record.Plain.decode_write {levels : Nat} {r : Record} (hp : r.Plain levels)
    (hlevels : 2 * levels - 1 ≤ maxLevels) :
    decode r.toItem.write =
      if r.fits then
        if r.isUtf8 then r.toDatum.mapError .failure else .error (.malformed .notUtf8)
      else .error (.malformed .tooManyItems) := by
  rw [decode, Item.read_write (hp.toItem.mono hlevels), r.fits_toItem]
  cases r.fits with
  | false => rfl
  | true =>
    show (do
      let record ← (Record.ofItem r.toItem).mapError DecodeError.malformed
      record.toDatum.mapError .failure) = _
    rw [hp.ofItem_toItem]
    cases r.isUtf8 <;> rfl

end ValueRuntime.Codec
