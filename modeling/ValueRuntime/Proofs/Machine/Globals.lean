import ValueRuntime.Proofs.Machine.Run
import ValueRuntime.Proofs.NameTable

/-! # Globals

    Each global has a cell of its own. An operation of a session leaves the table of globals
    as it is, or adds one name with a new cell. So in every run from a new machine the names
    stay in order and no two globals share a cell.
-/

namespace ValueRuntime

/-- The value of a global. -/
def Machine.globalValue? (m : Machine) (name : Bytes) : Option Datum :=
  (m.globals.find? name).map fun cell => m.heap.view ((m.cells[cell]?).getD .nil)

/-- **Globals in order:** their names are in order, their cells exist, and no two of them have
    the same cell. -/
structure Machine.GlobalsSound (m : Machine) : Prop where
  ordered : m.globals.Ordered
  lt_size : ∀ name (cell : Nat), m.globals.find? name = some cell → cell < m.cells.size
  apart : ∀ name name' (cell : Nat), m.globals.find? name = some cell →
    m.globals.find? name' = some cell → name = name'

namespace Session

variable {s s' : Session}

/-- **What an operation does to the globals:** nothing, or one is added. Cells are only added. -/
theorem globals_perform (s : Session) (op : Operation) :
    ((s.perform op).machine.globals = s.machine.globals ∧
      s.machine.cells.size ≤ (s.perform op).machine.cells.size) ∨
    ∃ name, s.machine.globals.find? name = none ∧ s.perform op = s.withGlobal name := by
  cases op with
  | globalCell name =>
    rcases s.globalCell_cases name with ⟨cell, -, -, hsame⟩ | ⟨hnone, -, hnew⟩
    · left
      rw [perform, hsame]
      exact ⟨rfl, Nat.le_refl _⟩
    · exact .inr ⟨name, hnone, hnew⟩
  | newCell v =>
    left
    refine ⟨rfl, ?_⟩
    show s.machine.cells.size ≤ (s.machine.cells.push _).size
    simp
  | writeCell cell v =>
    left
    cases cell with
    | none => exact ⟨rfl, Nat.le_refl _⟩
    | some target =>
      refine ⟨rfl, ?_⟩
      show s.machine.cells.size ≤ (s.machine.cells.setIfInBounds target _).size
      simp
  | print v =>
    left
    obtain ⟨lines, hafter⟩ := exists_lines_after_print s v
    rw [perform, hafter]
    exact ⟨rfl, Nat.le_refl _⟩
  | objectOf keys values =>
    left
    simp only [perform]
    split <;> exact ⟨rfl, Nat.le_refl _⟩
  | store id key v =>
    left
    simp only [perform]
    split <;> exact ⟨rfl, Nat.le_refl _⟩
  | leave =>
    left
    simp only [perform]
    split <;> exact ⟨rfl, Nat.le_refl _⟩
  | _ => exact .inl ⟨rfl, Nat.le_refl _⟩

theorem globalsSound_new (id name : Bytes) (writable : Bool) :
    (Session.new id name writable).machine.GlobalsSound := by
  have hnone : ∀ name', (Session.new id name writable).machine.globals.find? name' = none :=
    fun _ => rfl
  refine ⟨List.Pairwise.nil, ?_, ?_⟩
  · intro name' cell hcell
    rw [hnone] at hcell
    cases hcell
  · intro name' name'' cell hcell
    rw [hnone] at hcell
    cases hcell

/-- A new global has the cell behind all others. -/
theorem globalsSound_withGlobal (hs : s.machine.GlobalsSound) (name : Bytes) :
    (s.withGlobal name).machine.GlobalsSound := by
  have hfind : ∀ other, (s.withGlobal name).machine.globals.find? other
      = if other = name then some s.machine.cells.size else s.machine.globals.find? other := by
    intro other
    show (s.machine.globals.insert name _).find? other = _
    by_cases hother : other = name
    · rw [if_pos hother, hother, NameTable.find?_insert]
    · rw [if_neg hother, NameTable.find?_insert_of_ne _ hother]
  have hsize : (s.withGlobal name).machine.cells.size = s.machine.cells.size + 1 := by
    show (s.machine.cells.push .nil).size = _
    simp
  refine ⟨hs.ordered.insert name _, ?_, ?_⟩
  · intro other cell hcell
    rw [hfind] at hcell
    rw [hsize]
    split at hcell
    · cases hcell
      omega
    · have := hs.lt_size other cell hcell
      omega
  · intro other other' cell hcell hcell'
    rw [hfind] at hcell hcell'
    by_cases hother : other = name <;> by_cases hother' : other' = name
    · rw [hother, hother']
    · -- The new cell is no old one.
      rw [if_pos hother] at hcell
      rw [if_neg hother'] at hcell'
      cases hcell
      have := hs.lt_size other' _ hcell'
      omega
    · rw [if_neg hother] at hcell
      rw [if_pos hother'] at hcell'
      cases hcell'
      have := hs.lt_size other _ hcell
      omega
    · rw [if_neg hother] at hcell
      rw [if_neg hother'] at hcell'
      exact hs.apart other other' cell hcell hcell'

theorem globalsSound_perform (hs : s.machine.GlobalsSound) (op : Operation) :
    (s.perform op).machine.GlobalsSound := by
  rcases s.globals_perform op with ⟨hglobals, hsize⟩ | ⟨name, -, hnew⟩
  · constructor
    · rw [hglobals]
      exact hs.ordered
    · intro name cell hcell
      rw [hglobals] at hcell
      have := hs.lt_size name cell hcell
      omega
    · rw [hglobals]
      exact hs.apart
  · rw [hnew]
    exact globalsSound_withGlobal hs name

end Session

/-- **A run keeps the globals in order.** -/
theorem Run.globalsSound {s s' : Session} {ops : List Operation} (hrun : Run s ops s')
    (hs : s.machine.GlobalsSound) : s'.machine.GlobalsSound := by
  induction hrun with
  | done s => exact hs
  | step _ _ ih => exact ih (Session.globalsSound_perform hs _)

end ValueRuntime
