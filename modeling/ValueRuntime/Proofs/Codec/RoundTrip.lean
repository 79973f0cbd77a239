import ValueRuntime.Proofs.Codec.Data
import ValueRuntime.Proofs.Image.Statements

/-! # Encoding and decoding

    What becomes of a datum that is encoded and decoded again, in one piece:

    * A datum within all limits is encoded, and its tree comes back.
    * The limits of the two directions differ. The encoder looks for functions and at the
      depth; the decoder also at texts and at counts. So some encoded forms are refused, and
      a value that was stored in an image may be lost.
-/

namespace ValueRuntime

open Codec

/-! ## Decoding what was encoded -/

/-- **Decoding an encoded form:** the counts are looked at first, then the texts, and after
    that nothing can fail. -/
theorem Codec.decode_encoded {d : Datum} (hb : d.isBalanced = true) (hs : d.isSized = true)
    {bytes : Bytes} (hbytes : encode d = .ok bytes) :
    decode bytes =
      if d.fits then if d.isUtf8 then .ok (rebuilt d) else .error (.malformed .notUtf8)
      else .error (.malformed .tooManyItems) := by
  obtain ⟨⟨he, hdepth⟩, rfl⟩ := (encode_eq_ok_iff hb bytes).mp hbytes
  have hplain := plain_recordOf hb hs hdepth
  rw [hplain.decode_write (by decide), fits_recordOf hb, isUtf8_recordOf,
    toDatum_recordOf hb he]
  rfl

theorem Codec.exists_decode_iff {d : Datum} (hb : d.isBalanced = true) (hs : d.isSized = true)
    {bytes : Bytes} (hbytes : encode d = .ok bytes) :
    (∃ d', decode bytes = .ok d') ↔ d.isUtf8 = true ∧ d.fits = true := by
  rw [decode_encoded hb hs hbytes]
  cases d.fits with
  | false => simp
  | true => cases d.isUtf8 <;> simp

/-! ## Trees that come back -/

/-- **A portable datum:** it has an encoded form and is within all limits of the decoder. -/
structure Datum.Portable (d : Datum) : Prop where
  /-- It holds no function, and each object in it has keys and values. -/
  encodable : d.isEncodable = true
  /-- Its lists and objects do not nest too deep. -/
  depth_le : d.depth ≤ maxDepth
  /-- Its strings are valid UTF-8. -/
  utf8 : d.isUtf8 = true
  /-- Its lists and objects are not too long. -/
  fits : d.fits = true
  /-- Its objects have as many values as keys. -/
  balanced : d.isBalanced = true
  /-- No object in it has two equal keys. -/
  distinct : d.hasDistinctKeys = true
  /-- Its lengths are machine numbers. -/
  sized : d.isSized = true

/-- **The tree of a portable datum survives** encoding and decoding: kinds, booleans, numbers,
    strings, items in order, and keys and values in order. -/
theorem portable_tree_survives {d : Datum} (hd : d.Portable) :
    ∃ bytes d', encode d = .ok bytes ∧ decode bytes = .ok d' ∧ d'.tree = d.tree := by
  have hbytes := (encode_eq_ok_iff hd.balanced _).mpr ⟨⟨hd.encodable, hd.depth_le⟩, rfl⟩
  refine ⟨_, rebuilt d, hbytes, ?_, tree_rebuilt hd.balanced hd.distinct⟩
  rw [decode_encoded hd.balanced hd.sized hbytes, hd.fits, hd.utf8]
  rfl

/-- Signed zeros, the smallest and the largest numbers and two keys that are not numbers, below
    as many lists as there may be. -/
theorem deepest_tree_survives :
    let d := Nat.repeat (fun d => .list 1 [d]) 253 (.object 8
      [.number (.zero true), .string [0xc3, 0xa9], .number .nan, .number .nan]
      [.number (.infinity true), .number (.ofBits 1), .boolean true, .list 0 []])
    d.Portable ∧ ∃ bytes d', encode d = .ok bytes ∧ decode bytes = .ok d' ∧ d'.tree = d.tree := by
  intro d
  have hd : d.Portable :=
    ⟨by decide +kernel, by decide +kernel, by decide +kernel, by decide +kernel,
      by decide +kernel, by decide +kernel, by decide +kernel⟩
  exact ⟨hd, portable_tree_survives hd⟩

/-! ## Images -/

/-- What an image gives for a name under which a value was just stored. -/
theorem Image.get_of_put {image image' : Image} {name runtime : Bytes} {d : Datum} {now : Int}
    (hput : image.put name d runtime now = .ok image') :
    ∃ bytes, encode d = .ok bytes ∧
      image'.get name = (decode bytes).mapError (.decoding name) := by
  obtain ⟨bytes, rows, hbytes, hrows, rfl⟩ := Image.put_eq_ok_iff.mp hput
  refine ⟨bytes, hbytes, ?_⟩
  let stored := rows.insert name ⟨bytes, runtime, .time now⟩
  have hopen : (image.withRows stored).isOpen = true := (Image.rows_eq_ok_iff.mp hrows).1
  have hget := Image.get_eq hopen rfl name
  rw [NameTable.find?_insert] at hget
  exact hget

/-! ## Encoded forms that are refused -/

/-- **When an encoded form is decoded:** exactly when every string in the datum is valid UTF-8
    and no list or object is longer than what is read. The same decides whether a value that
    was stored in an image can be loaded again. -/
theorem encoded_form_accepted_iff {d : Datum} (hb : d.isBalanced = true) (hs : d.isSized = true)
    {bytes : Bytes} (hbytes : encode d = .ok bytes) :
    ((∃ d', decode bytes = .ok d') ↔ d.isUtf8 = true ∧ d.fits = true) ∧
      ∀ (image image' : Image) (name runtime : Bytes) (now : Int),
        image.put name d runtime now = .ok image' →
          ((∃ d', image'.get name = .ok d') ↔ d.isUtf8 = true ∧ d.fits = true) := by
  refine ⟨exists_decode_iff hb hs hbytes, ?_⟩
  intro image image' name runtime now hput
  obtain ⟨stored, hstored, hget⟩ := Image.get_of_put hput
  rw [hget, ← exists_decode_iff hb hs hstored]
  cases decode stored with
  | error e => exact ⟨fun ⟨_, hok⟩ => (by cases hok), fun ⟨_, hok⟩ => (by cases hok)⟩
  | ok d' => exact ⟨fun _ => ⟨d', rfl⟩, fun _ => ⟨d', rfl⟩⟩

/-- A string with a stray byte is stored in an image, and cannot be loaded again. -/
theorem stray_byte_lost_in_image :
    ∃ image', (Image.new []).put [0x6b] (.string [0xff]) [] 0 = .ok image' ∧
      ¬∃ d', image'.get [0x6b] = .ok d' := by
  have hbytes := (encode_eq_ok_iff (d := .string [0xff]) rfl _).mpr ⟨⟨rfl, by decide⟩, rfl⟩
  have hput : (Image.new []).put [0x6b] (.string [0xff]) [] 0 =
      .ok ((Image.new []).withRows (NameTable.insert [0x6b]
        ⟨(recordOf (.string [0xff])).toItem.write, [], .time 0⟩ [])) :=
    Image.put_eq_ok_iff.mpr ⟨_, [], hbytes, rfl, rfl⟩
  refine ⟨_, hput, fun hget => ?_⟩
  obtain ⟨hutf8, -⟩ :=
    ((encoded_form_accepted_iff rfl (by decide) hbytes).2 _ _ _ _ _ hput).mp hget
  cases hutf8

/-- A string with a stray byte has an encoded form, which does not decode. -/
theorem stray_byte_refused :
    ∃ bytes, encode (.string [0xff]) = .ok bytes ∧ decode bytes = .error (.malformed .notUtf8) := by
  have hbytes := (encode_eq_ok_iff (d := .string [0xff]) rfl _).mpr ⟨⟨rfl, by decide⟩, rfl⟩
  refine ⟨_, hbytes, ?_⟩
  rw [decode_encoded rfl (by decide) hbytes]
  rfl

end ValueRuntime
