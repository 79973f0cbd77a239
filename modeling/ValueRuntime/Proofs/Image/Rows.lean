import ValueRuntime.Image.Basic
import ValueRuntime.Proofs.NameTable
import ValueRuntime.Proofs.Results

/-! # The rows of an open image

    What an image answers when its rows can be read: values are decoded from rows, names and
    entries are told row by row.
-/

namespace ValueRuntime.Image

open Codec

variable {image : Image} {rows : NameTable Row}

theorem rows_eq_ok_iff {attempt : Attempt} :
    image.rows attempt = .ok rows ↔ image.isOpen = true ∧ image.rows? = some rows := by
  unfold Image.rows
  cases image.isOpen <;> cases image.rows? <;> simp

theorem decodeRow_eq (name : Bytes) (row : Row) :
    decodeRow name row = (decode row.data).mapError (.decoding name) := by
  unfold decodeRow
  cases decode row.data <;> rfl

/-- **The value of a name,** from its row. -/
theorem get_eq (hopen : image.isOpen = true) (hrows : image.rows? = some rows) (name : Bytes) :
    image.get name = match rows.find? name with
      | some row => (decode row.data).mapError (.decoding name)
      | none => .error (.notFound name) := by
  rw [Image.get, rows_eq_ok_iff.mpr ⟨hopen, hrows⟩, ok_bind]
  cases rows.find? name with
  | none => rfl
  | some row => exact decodeRow_eq name row

/-- A row with a time has a summary. -/
theorem summary_eq_ok_iff {name : Bytes} {row : Row} {entry : RowSummary} :
    summary (name, row) = .ok entry ↔ name = entry.name ∧ row.runtime = entry.runtime ∧
      row.savedAt = .time entry.savedAt ∧ row.data.length = entry.size := by
  obtain ⟨name', runtime, savedAt, size⟩ := entry
  unfold summary
  cases row.savedAt <;> simp

/-- **The entries,** row by row in the order of the rows. -/
theorem exists_entries (hopen : image.isOpen = true) (hrows : image.rows? = some rows)
    (htimes : ∀ entry ∈ rows, ∃ now, entry.2.savedAt = .time now) :
    ∃ entries, image.entries = .ok entries ∧ rows.mapM summary = .ok entries ∧
      entries.map (·.name) = rows.names := by
  have hsummaries : ∀ entry ∈ rows, ∃ result, summary entry = .ok result := by
    intro entry hentry
    obtain ⟨now, hnow⟩ := htimes entry hentry
    exact ⟨⟨entry.1, entry.2.runtime, now, entry.2.data.length⟩,
      summary_eq_ok_iff.mpr ⟨rfl, rfl, hnow, rfl⟩⟩
  obtain ⟨entries, hentries⟩ := exists_mapM hsummaries
  refine ⟨entries, ?_, hentries, map_of_mapM hentries ?_⟩
  · rw [Image.entries, rows_eq_ok_iff.mpr ⟨hopen, hrows⟩]
    exact hentries
  · intro entry _ result hresult
    exact (summary_eq_ok_iff.mp hresult).1.symm

end ValueRuntime.Image
