import ValueRuntime.Proofs.Codec.RoundTrip
import ValueRuntime.Proofs.Image.History
import ValueRuntime.Proofs.Image.Loading
import ValueRuntime.Proofs.Machine.Sizes

/-! # From one runtime to another

    The globals of a runtime are saved to an image, and the image is loaded into another
    runtime. Globals that hold a function stay behind. All others arrive with their trees, if
    they are within the limits of the decoder. What was in the image before is loaded too where
    the save left it, and the other globals of the second runtime are not touched.

    Which globals are saved is settled by what encoding makes of them: a value without functions
    is never passed over, and a value with a function in it is never written, because no object
    keeps a value that the encoder does not come to.
-/

namespace ValueRuntime

open Codec

/-! ## Values without functions -/

namespace Datum

/-- **A restorable datum:** once it is encoded, decoding gives its tree back. -/
structure Restorable (d : Datum) : Prop where
  /-- Its strings are valid UTF-8. -/
  utf8 : d.isUtf8 = true
  /-- Its lists and objects are not too long. -/
  fits : d.fits = true
  /-- Its objects have as many values as keys. -/
  balanced : d.isBalanced = true
  /-- No object in it has two equal keys. -/
  distinct : d.hasDistinctKeys = true
  /-- Its lengths are machine numbers. -/
  sized : d.isSized = true

theorem Restorable.exists_decode {d : Datum} (hd : d.Restorable) {bytes : Bytes}
    (hbytes : encode d = .ok bytes) : ∃ d', decode bytes = .ok d' ∧ d'.tree = d.tree := by
  refine ⟨rebuilt d, ?_, tree_rebuilt hd.balanced hd.distinct⟩
  rw [decode_encoded hd.balanced hd.sized hbytes, hd.fits, hd.utf8]
  rfl

end Datum

namespace Codec

/-- Encoding does not stop at a function where there is none. -/
theorem cause_ne_function {d : Datum} (hb : d.isBalanced = true) (hd : d.isFunctionFree = true)
    {inner : Failure} (herror : encode d = .error (.failure inner)) :
    inner.cause ≠ .function := by
  have hother : ∀ (e : EncodeError) step, (∀ inner, e = .failure inner → inner.cause ≠ .function) →
      ∀ inner, e.within step = .failure inner → inner.cause ≠ .function := by
    intro e step he inner hinner
    cases e with
    | fault cause => cases hinner
    | failure reason =>
      cases hinner
      exact he reason rfl
  rcases bind_eq_error herror with hrecord | ⟨record, -, hdone⟩
  · refine ofDatum_error (P := fun e => ∀ inner, e = .failure inner → inner.cause ≠ .function)
      hb hd hother ?_ ?_ ?_ hrecord inner rfl
    · intro inner hinner
      cases hinner
      simp [Failure.here]
    · intro _ inner hinner
      cases hinner
    · intro f hf
      cases hf
  · cases hdone

/-- An encoder that comes to the end of the keys has found a value for each. -/
theorem length_le_of_collectPairs {values : List (Except EncodeError Record)}
    {keys : List (Bytes × Except EncodeError Record)} {index : Nat}
    {pairs : List Record × List Record} (hok : collectPairs values index keys = .ok pairs)
    (hindex : index ≤ values.length) : index + keys.length ≤ values.length := by
  induction keys generalizing index pairs with
  | nil => exact hindex
  | cons entry rest ih =>
    obtain ⟨shown, key⟩ := entry
    rw [collectPairs] at hok
    cases hvalue : values[index]? with
    | none =>
      rw [hvalue] at hok
      cases hok
    | some value =>
      rw [hvalue] at hok
      have hlt : index < values.length := (List.getElem?_eq_some_iff.mp hvalue).1
      obtain ⟨first, -, hok'⟩ := bind_eq_ok hok
      obtain ⟨second, -, hok''⟩ := bind_eq_ok hok'
      obtain ⟨more, hmore, -⟩ := bind_eq_ok hok''
      have hrest := ih hmore hlt
      rw [List.length_cons]
      omega

theorem exists_record {ds : List Datum} {records : List Record} {depth : Nat}
    (hrecords : ds.map (Record.ofDatum depth) = records.map .ok) {d : Datum} (hd : d ∈ ds) :
    ∃ r, Record.ofDatum depth d = .ok r := by
  have hmem : Record.ofDatum depth d ∈ records.map Except.ok := by
    rw [← hrecords]
    exact List.mem_map_of_mem hd
  obtain ⟨r, -, hr⟩ := List.mem_map.mp hmem
  exact ⟨r, hr.symm⟩

/-- **What is encoded is balanced,** if no object in it has more values than keys. -/
theorem isBalanced_of_ofDatum {d : Datum} (hc : d.isCovered = true) {depth : Nat} {r : Record}
    (hok : Record.ofDatum depth d = .ok r) : d.isBalanced = true := by
  induction d using Datum.treeInduction generalizing depth r with
  | list capacity items ih =>
    rw [Datum.isCovered_list_iff] at hc
    rw [Record.ofDatum, ofData_eq_map] at hok
    split at hok
    · cases hok
    · obtain ⟨records, hrecords, -⟩ := bind_eq_ok hok
      rw [Datum.isBalanced_list_iff]
      intro d hd
      obtain ⟨r, hr⟩ := exists_record (collectItems_eq_ok_iff.mp hrecords) hd
      exact ih d hd (hc d hd) hr
  | object capacity keys values ihk ihv =>
    obtain ⟨hsizes, hck, hcv⟩ := (Datum.isCovered_object_iff _ _ _).mp hc
    rw [Record.ofDatum, ofData_eq_map, ofData_eq_map] at hok
    split at hok
    · cases hok
    · obtain ⟨⟨ks, vs⟩, hpairs, -⟩ := bind_eq_ok hok
      -- There is a value for each key, and no value more.
      have hle := length_le_of_collectPairs hpairs (Nat.zero_le _)
      simp only [List.length_zip, List.length_map, Nat.min_self, Nat.zero_add] at hle
      have hlength : keys.length = values.length := by omega
      obtain ⟨hkeys, hvalues⟩ := (collectPairs_eq_ok_iff (by simp [hlength])).mp hpairs
      rw [List.map_snd_zip (by simp)] at hkeys
      rw [List.drop_zero] at hvalues
      rw [Datum.isBalanced_object_iff]
      refine ⟨hlength, ?_, ?_⟩
      · intro d hd
        obtain ⟨r, hr⟩ := exists_record hkeys hd
        exact ihk d hd (hck d hd) hr
      · intro d hd
        obtain ⟨r, hr⟩ := exists_record hvalues hd
        exact ihv d hd (hcv d hd) hr
  | _ => rfl

/-- **Which values are saved** when saving succeeds: those without functions. -/
theorem isOk_encode_eq {d : Datum} (hc : d.isCovered = true) (hsavable : d.isSavable = true)
    (hb : d.isFunctionFree = true → d.isBalanced = true) :
    (encode d).isOk = d.isFunctionFree := by
  cases hencode : encode d with
  | ok bytes =>
    obtain ⟨r, hr, -⟩ := bind_eq_ok hencode
    have hbalanced := isBalanced_of_ofDatum hc hr
    obtain ⟨⟨hencodable, -⟩, -⟩ := (encode_eq_ok_iff hbalanced bytes).mp hencode
    rw [((Datum.isEncodable_iff d).mp hencodable).1]
    rfl
  | error e =>
    -- Savable without an encoded form: it was passed over for a function in it.
    show false = d.isFunctionFree
    symm
    rw [Bool.eq_false_iff]
    intro hfree
    unfold Datum.isSavable at hsavable
    rw [hencode] at hsavable
    cases e with
    | fault cause => cases hsavable
    | failure inner =>
      exact cause_ne_function (hb hfree) hfree hencode (of_decide_eq_true hsavable)

end Codec

/-! ## Images -/

namespace Image

variable {image image' : Image} {table : Bytes → Option Row} {rows : NameTable Row}

/-- A readable image keeps its rows. -/
theorem Readable.keeps (hr : image.Readable rows) (ho : rows.Ordered) :
    image.Keeps rows.find? where
  isOpen := hr.isOpen
  rows := ⟨rows, hr.rows_eq, ho, fun _ => rfl⟩
  times := fun name row hrow => hr.times (name, row) (NameTable.mem_of_find? hrow)

/-- An image is readable when the rows it keeps can be decoded. -/
theorem Keeps.readable (hk : image.Keeps table)
    (hdecodes : ∀ name row, table name = some row → ∃ d, decode row.data = .ok d) :
    ∃ rows, image.Readable rows ∧ ∀ name, rows.find? name = table name := by
  obtain ⟨rows, hrows, ho, hfind⟩ := hk.rows
  refine ⟨rows, ⟨hk.isOpen, hrows, ?_, ?_⟩, hfind⟩
  · intro entry hentry
    have hrow : rows.find? entry.1 = some entry.2 := ho.mem_iff.mp hentry
    exact hk.times entry.1 entry.2 (by rw [← hfind]; exact hrow)
  · intro name row hrow
    exact hdecodes name row (by rw [← hfind]; exact hrow)

/-- **A readable image is loaded.** -/
theorem Readable.load {s : Session} (hr : image.Readable rows) (hs : s.Sound)
    (hglobals : s.machine.GlobalsSound) :
    ∃ m, image.load.run s.machine = (.ok rows.length, m) ∧ s.machine.Loaded rows m := by
  obtain ⟨values, hvalues, hlength, hmem⟩ := hr.exists_values
  have hdecoded : ∀ entry ∈ values, ∃ input, decode input = .ok entry.2 :=
    fun entry hentry => decoded_of_values hvalues hentry
  have hagree : ∀ name d d', (name, d) ∈ values → (name, d') ∈ values → d = d' := by
    intro name d d' hd hd'
    obtain ⟨row, hrow, hdecode⟩ := (hmem name d).mp hd
    obtain ⟨row', hrow', hdecode'⟩ := (hmem name d').mp hd'
    have hsame : row = row' := Option.some.inj (hrow.symm.trans hrow')
    subst hsame
    exact Except.ok.inj (hdecode.symm.trans hdecode')
  have hassigned := s.assigned_foldl hs hglobals hdecoded hagree
  refine ⟨_, ?_, s.loaded_of_assigned hs hglobals hassigned hr.decodes hmem⟩
  rw [run_load, hvalues, ← hlength]

end Image

/-- A stored name is a global with the decoded value of its row. -/
theorem Machine.Loaded.globalValue {m m' : Machine} {rows : NameTable Row}
    (hl : m.Loaded rows m') {name : Bytes} {row : Row} (hrow : rows.find? name = some row) :
    ∃ d, decode row.data = .ok d ∧ m'.globalValue? name = some d := by
  obtain ⟨d, cell, v, hd, hcell, hv, hview, -⟩ := hl.stored name row hrow
  refine ⟨d, hd, ?_⟩
  unfold Machine.globalValue?
  rw [hcell, Option.map_some, hv, Option.getD_some, hview]

/-! ## The globals of a runtime -/

/-- A session that some run from a new machine leads to. -/
def Session.IsReached (s : Session) : Prop :=
  ∃ id name writable ops, Run (.new id name writable) ops s

/-- The values of all globals without functions can be restored. -/
def Machine.IsRestorable (m : Machine) : Prop :=
  ∀ name d, m.globalValue? name = some d → d.isFunctionFree = true → d.Restorable

section Saved

variable {s : Session} {now : Int} {name : Bytes} {d : Datum}

theorem mem_globalValues_iff (ho : s.machine.globals.Ordered) :
    (name, d) ∈ s.machine.globalValues ↔ s.machine.globalValue? name = some d := by
  rw [(ordered_globalValues ho).mem_iff, find?_globalValues]

/-- **Which globals are saved** when saving succeeds: those without functions. -/
theorem isOk_encode_global (hc : ∀ v, (s.heap.view v).isCovered = true)
    (ho : s.machine.globals.Ordered) (hall : (Call.save s.machine now).isEncodable = true)
    (hgood : s.machine.IsRestorable) (hd : s.machine.globalValue? name = some d) :
    (encode d).isOk = d.isFunctionFree := by
  have hmem : (name, d) ∈ s.machine.globalValues := (mem_globalValues_iff ho).mpr hd
  have hsavable : d.isSavable = true := List.all_eq_true.mp hall (name, d) hmem
  have hcovered : d.isCovered = true := by
    obtain ⟨⟨name', cell⟩, -, hentry⟩ := List.mem_map.mp hmem
    cases hentry
    exact hc _
  exact isOk_encode_eq hcovered hsavable fun hfree => (hgood name d hd hfree).balanced

/-- A global that is saved leaves its encoded value in the row of its name. -/
theorem effect_save_of_ok (hall : (Call.save s.machine now).isEncodable = true)
    (hd : s.machine.globalValue? name = some d) {bytes : Bytes} (hbytes : encode d = .ok bytes) :
    (Call.save s.machine now).effect name = some (some ⟨bytes, s.machine.id, .time now⟩) := by
  rw [Call.effect_save hall, savedRow?, find?_globalValues, hd, Option.bind_some, hbytes]
  rfl

/-- A name without such a global keeps its row. -/
theorem effect_save_of_not_ok (hall : (Call.save s.machine now).isEncodable = true)
    (hnone : ∀ d, s.machine.globalValue? name = some d → (encode d).isOk = false) :
    (Call.save s.machine now).effect name = none := by
  rw [Call.effect_save hall, savedRow?, find?_globalValues]
  cases hvalue : s.machine.globalValue? name with
  | none => rfl
  | some d =>
    have hfails := hnone d hvalue
    cases hencode : encode d with
    | ok bytes =>
      rw [hencode] at hfails
      cases hfails
    | error e =>
      rw [Option.bind_some, hencode]
      rfl

end Saved

/-- **Saving one runtime and loading another.** When the globals of a runtime are saved to an
    image whose rows can all be read, and those without functions can be restored, then:

    * The count of the save is the number of globals without functions.
    * The image can be loaded into every runtime.
    * Each global without functions is then a global of that runtime, with the same tree.
    * Each other name of the image has the value that it had in the image before.
    * Every other global of that runtime is as it was. -/
theorem save_then_load {src dst : Session} (hsrc : src.IsReached) (hdst : dst.IsReached)
    {image image' : Image} {rows : NameTable Row} (hr : image.Readable rows) (ho : rows.Ordered)
    (hgood : src.machine.IsRestorable) {now : Int} {count : Nat}
    (hsave : image.saveGlobals src.machine now = .ok (count, image')) :
    (count = src.machine.globalValues.countP fun entry => entry.2.isFunctionFree) ∧
      ∃ loaded m, image'.load.run dst.machine = (.ok loaded, m) ∧
        (∀ name d, src.machine.globalValue? name = some d → d.isFunctionFree = true →
          ∃ d', m.globalValue? name = some d' ∧ d'.tree = d.tree) ∧
        (∀ name row d, rows.find? name = some row → decode row.data = .ok d →
          (∀ own, src.machine.globalValue? name = some own → own.isFunctionFree = false) →
          m.globalValue? name = some d) ∧
        ∀ name, rows.find? name = none →
          (∀ own, src.machine.globalValue? name = some own → own.isFunctionFree = false) →
          m.globals.find? name = dst.machine.globals.find? name ∧
            m.globalValue? name = dst.machine.globalValue? name := by
  obtain ⟨srcId, srcName, srcWritable, srcOps, hsrcRun⟩ := hsrc
  obtain ⟨dstId, dstName, dstWritable, dstOps, hdstRun⟩ := hdst
  have hordered : src.machine.globals.Ordered :=
    (hsrcRun.globalsSound (Session.globalsSound_new srcId srcName srcWritable)).ordered
  have hsound : dst.Sound := hdstRun.sound (Session.sound_new dstId dstName dstWritable)
  have hglobals : dst.machine.GlobalsSound :=
    hdstRun.globalsSound (Session.globalsSound_new dstId dstName dstWritable)
  -- The save succeeded, so the image keeps its effect on each name.
  obtain ⟨hall, hkept⟩ : (Call.save src.machine now).isEncodable = true ∧
      image'.Keeps fun name => ((Call.save src.machine now).effect name).getD (rows.find? name) := by
    have hon := Statement.outcome_eq_ok_iff.mp hsave
    rcases (hr.keeps ho).save hordered now with ⟨e, herror, -⟩ | ⟨count', image'', hok, hall, hk⟩
    · rw [hon] at herror
      cases herror
    · rw [hon] at hok
      cases hok
      exact ⟨hall, hk⟩
  have hencodes : ∀ name d, src.machine.globalValue? name = some d →
      (encode d).isOk = d.isFunctionFree :=
    fun name d hd => isOk_encode_global hsrcRun.isCovered_view hordered hall hgood hd
  have hsaved : ∀ name d, src.machine.globalValue? name = some d → d.isFunctionFree = true →
      ∃ bytes, encode d = .ok bytes ∧
        (Call.save src.machine now).effect name = some (some ⟨bytes, src.machine.id, .time now⟩) := by
    intro name d hd hfree
    have hok := hencodes name d hd
    rw [hfree] at hok
    cases hbytes : encode d with
    | error e =>
      rw [hbytes] at hok
      cases hok
    | ok bytes => exact ⟨bytes, rfl, effect_save_of_ok hall hd hbytes⟩
  have hskipped : ∀ name,
      (∀ own, src.machine.globalValue? name = some own → own.isFunctionFree = false) →
      (Call.save src.machine now).effect name = none := by
    intro name hown
    apply effect_save_of_not_ok hall
    intro d hd
    rw [hencodes name d hd]
    exact hown d hd
  -- Whatever the image has now can be decoded: it was saved just now, or was there before.
  obtain ⟨rows', hr', hfind⟩ := hkept.readable (by
    intro name row hrow
    by_cases hown : ∃ d, src.machine.globalValue? name = some d ∧ d.isFunctionFree = true
    · obtain ⟨d, hd, hfree⟩ := hown
      obtain ⟨bytes, hbytes, heffect⟩ := hsaved name d hd hfree
      rw [heffect] at hrow
      cases hrow
      obtain ⟨d', hd', -⟩ := (hgood name d hd hfree).exists_decode hbytes
      exact ⟨d', hd'⟩
    · have hnone : ∀ own, src.machine.globalValue? name = some own → own.isFunctionFree = false :=
        fun own hvalue => Bool.eq_false_iff.mpr fun hfree => hown ⟨own, hvalue, hfree⟩
      rw [hskipped name hnone] at hrow
      exact hr.decodes name row hrow)
  obtain ⟨m, hload, hloaded⟩ := hr'.load hsound hglobals
  refine ⟨?_, rows'.length, m, hload, ?_, ?_, ?_⟩
  · rw [(Image.savedRows_of_saveGlobals hordered hr.isOpen hr.rows_eq hsave).1]
    apply List.countP_congr
    rintro ⟨name, d⟩ hmem
    rw [hencodes name d ((mem_globalValues_iff hordered).mp hmem)]
  · intro name d hd hfree
    obtain ⟨bytes, hbytes, heffect⟩ := hsaved name d hd hfree
    obtain ⟨d', hd', htree⟩ := (hgood name d hd hfree).exists_decode hbytes
    have hrow := hfind name
    rw [heffect] at hrow
    obtain ⟨e, he, hvalue⟩ := hloaded.globalValue hrow
    have hsame : d' = e := Except.ok.inj (hd'.symm.trans he)
    exact ⟨e, hvalue, by rw [← hsame]; exact htree⟩
  · intro name row d hrow hd hown
    have hrow' := hfind name
    rw [hskipped name hown, hrow] at hrow'
    obtain ⟨e, he, hvalue⟩ := hloaded.globalValue hrow'
    rw [hvalue, Except.ok.inj (hd.symm.trans he)]
  · intro name hnone hown
    have hrow' := hfind name
    rw [hskipped name hown, hnone] at hrow'
    exact hloaded.others name hrow'

/-- A runtime with a function in `f` and a string in `x` is saved to an image that has a value
    for `f`, and a runtime with the global `g` is loaded. One global is saved; the string comes
    over, `f` gets the older value, and `g` stays. -/
theorem older_value_comes_with_save :
    let src := (((Session.new [0x31] [] true).perform (.globalCell [0x66])).perform
      (.writeCell (some 0) (.function (some 0)))).perform (.globalCell [0x78])
    let src := src.perform (.writeCell (some 1) (.string [0xc3, 0xa9]))
    let dst := (Session.new [0x32] [] true).perform (.globalCell [0x67])
    let rows : NameTable Row := [([0x66], ⟨[0xa2, 0x01, 0x01, 0x02, 0xf5], [0x33], .time 1⟩)]
    ∃ image' loaded m,
      ((Image.new []).withRows rows).saveGlobals src.machine 2 = .ok (1, image') ∧
        image'.load.run dst.machine = (.ok loaded, m) ∧
        (∃ d, m.globalValue? [0x78] = some d ∧ d.tree = .string [0xc3, 0xa9]) ∧
        m.globalValue? [0x66] = some (.boolean true) ∧ m.globalValue? [0x67] = some .nil := by
  intro src₀ src dst rows
  have hsrc : src.IsReached := by
    refine ⟨[0x31], [], true, _, .step ?_ (.step ?_ (.step ?_ (.single ?_)))⟩
    · exact fun v hv => by cases hv
    · intro v hv
      rw [List.mem_singleton.mp hv]
      exact Heap.valid_function _
    · exact fun v hv => by cases hv
    · intro v hv
      rw [List.mem_singleton.mp hv]
      exact Heap.valid_string _
  have hdst : dst.IsReached := ⟨[0x32], [], true, _, .single fun v hv => by cases hv⟩
  have hreadable : ((Image.new []).withRows rows).Readable rows := by
    refine ⟨rfl, rfl, by simp [rows], ?_⟩
    intro name row hrow
    have hmem := NameTable.mem_of_find? hrow
    simp only [rows, List.mem_cons, List.not_mem_nil, or_false, Prod.mk.injEq] at hmem
    obtain ⟨-, rfl⟩ := hmem
    exact ⟨.boolean true, rfl⟩
  have hvalues : src.machine.globalValues
      = [([0x66], .function (some 0)), ([0x78], .string [0xc3, 0xa9])] := rfl
  have hgood : src.machine.IsRestorable := by
    intro name d hd hfree
    rw [← find?_globalValues, hvalues] at hd
    have hmem := NameTable.mem_of_find? hd
    simp only [List.mem_cons, List.not_mem_nil, or_false, Prod.mk.injEq] at hmem
    rcases hmem with ⟨-, rfl⟩ | ⟨-, rfl⟩
    · cases hfree
    · exact ⟨by decide, rfl, rfl, rfl, by decide⟩
  cases hsave : ((Image.new []).withRows rows).saveGlobals src.machine 2 with
  | error e =>
    have hok : (((Image.new []).withRows rows).saveGlobals src.machine 2).isOk = true := by
      decide +kernel
    rw [hsave] at hok
    cases hok
  | ok result =>
    obtain ⟨count, image'⟩ := result
    obtain ⟨rfl, loaded, m, hload, hown, hearlier, hothers⟩ :=
      save_then_load hsrc hdst hreadable (List.pairwise_singleton _ _) hgood hsave
    refine ⟨image', loaded, m, rfl, hload, hown [0x78] _ rfl rfl, ?_, ?_⟩
    · refine hearlier [0x66] _ _ rfl rfl ?_
      intro own hvalue
      obtain rfl : Datum.function (some 0) = own := Option.some.inj hvalue
      rfl
    · refine (hothers [0x67] rfl ?_).2
      intro own hvalue
      cases hvalue

end ValueRuntime
