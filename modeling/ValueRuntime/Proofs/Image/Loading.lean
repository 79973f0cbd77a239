import ValueRuntime.Proofs.Codec.Decoded
import ValueRuntime.Proofs.Heap.Contents
import ValueRuntime.Proofs.Image.Rows
import ValueRuntime.Proofs.Machine.Evaluation
import ValueRuntime.Proofs.Machine.Globals

/-! # Loading an image into a runtime

    A load reads all rows before it assigns the first global. So it fails with the runtime as it
    was, or every row can be read and each stored name becomes a global that holds the decoded
    value.

    What assigning some values does is described by `Machine.Assigned`. One assignment has this
    description, and descriptions of two lists of assignments make one of both. A global that
    exists keeps its cell, so whoever captured the cell sees the new value. No two globals share
    a cell, so no other global is touched.
-/

namespace ValueRuntime

open Codec

/-! ## Assigning globals -/

/-- **What assigning values to globals does.** -/
structure Machine.Assigned (m : Machine) (values : List (Bytes × Datum)) (m' : Machine) :
    Prop where
  /-- The value of an assigned name is in the cell of its global. -/
  stored : ∀ name d, (name, d) ∈ values → ∃ (cell : Nat) (v : Value),
    m'.globals.find? name = some cell ∧ m'.cells[cell]? = some v ∧ m'.heap.view v = d
  /-- A global keeps its cell. -/
  kept : ∀ name (cell : Nat), m.globals.find? name = some cell →
    m'.globals.find? name = some cell
  /-- Only assigned names become globals, and their cells are new. -/
  made : ∀ name (cell : Nat), m'.globals.find? name = some cell →
    m.globals.find? name = some cell ∨ (∃ d, (name, d) ∈ values) ∧ m.cells.size ≤ cell
  /-- Every other cell holds what it held. -/
  cells : ∀ cell : Nat, cell < m.cells.size →
    (∀ name d, (name, d) ∈ values → m.globals.find? name ≠ some cell) →
    m'.cells[cell]? = m.cells[cell]?
  size_le : m.cells.size ≤ m'.cells.size
  older : m.heap.Older m'.heap
  /-- Nothing else changes, and so functions keep the cells they captured. -/
  rest : m' = { m with heap := m'.heap, cells := m'.cells, globals := m'.globals }

namespace Machine

variable {m m' m'' : Machine}

theorem assigned_nil (m : Machine) : m.Assigned [] m where
  stored := by
    intro name d hd
    cases hd
  kept := fun _ _ hcell => hcell
  made := fun _ _ hcell => .inl hcell
  cells := fun _ _ _ => rfl
  size_le := Nat.le_refl _
  older := Heap.Older.refl _
  rest := rfl

/-- **One list of assignments after another.** Where both assign a name they agree on the value.
    Whatever the first list stored and the second does not assign is still there, because no
    other global has its cell. -/
theorem Assigned.append {vs ws : List (Bytes × Datum)} (h₁ : m.Assigned vs m')
    (h₂ : m'.Assigned ws m'') (hglobals : m'.GlobalsSound) (hheap : m'.heap.Sound)
    (hvalid : ∀ (cell : Nat) v, m'.cells[cell]? = some v → m'.heap.Valid v)
    (hagree : ∀ name d d', (name, d) ∈ vs → (name, d') ∈ ws → d = d') :
    m.Assigned (vs ++ ws) m'' where
  stored := by
    intro name d hd
    rcases List.mem_append.mp hd with hfirst | hsecond
    · by_cases hagain : ∃ d', (name, d') ∈ ws
      · obtain ⟨d', hd'⟩ := hagain
        rw [hagree name d d' hfirst hd']
        exact h₂.stored name d' hd'
      · obtain ⟨cell, v, hcell, hv, hview⟩ := h₁.stored name d hfirst
        have hfree : ∀ other d', (other, d') ∈ ws → m'.globals.find? other ≠ some cell := by
          intro other d' hd' hother
          rw [hglobals.apart other name cell hother hcell] at hd'
          exact hagain ⟨d', hd'⟩
        refine ⟨cell, v, h₂.kept name cell hcell, ?_, ?_⟩
        · rw [h₂.cells cell (hglobals.lt_size name cell hcell) hfree, hv]
        · rw [Heap.view_older hheap h₂.older (hvalid cell v hv), hview]
    · exact h₂.stored name d hsecond
  kept := fun name cell hcell => h₂.kept name cell (h₁.kept name cell hcell)
  made := by
    intro name cell hcell
    have hle := h₁.size_le
    rcases h₂.made name cell hcell with hold | ⟨⟨d, hd⟩, hnew⟩
    · rcases h₁.made name cell hold with holder | ⟨⟨d, hd⟩, hnew⟩
      · exact .inl holder
      · exact .inr ⟨⟨d, List.mem_append_left _ hd⟩, hnew⟩
    · exact .inr ⟨⟨d, List.mem_append_right _ hd⟩, by omega⟩
  cells := by
    intro cell hlt hfree
    have hle := h₁.size_le
    rw [h₂.cells cell (by omega), h₁.cells cell hlt]
    · exact fun name d hd => hfree name d (List.mem_append_left _ hd)
    · intro name d hd hcell
      rcases h₁.made name cell hcell with hold | ⟨-, hnew⟩
      · exact hfree name d (List.mem_append_right _ hd) hold
      · omega
  size_le := Nat.le_trans h₁.size_le h₂.size_le
  older := h₁.older.trans h₂.older
  rest := by
    rw [h₂.rest, h₁.rest]

theorem setIfInBounds_push (cells : Array Value) (v w : Value) :
    (cells.push v).setIfInBounds cells.size w = cells.push w := by
  apply Array.ext_getElem?
  intro i
  rw [Array.getElem?_setIfInBounds, Array.getElem?_push, Array.getElem?_push, Array.size_push]
  by_cases hi : i = cells.size
  · subst hi
    simp
  · simp [hi, Ne.symm hi]

/-- The value that an assignment puts into a cell: a copy of what was laid out before. -/
def copied (m : Machine) (d : Datum) : Value × Heap :=
  (m.heap.alloc d).2.copy (m.heap.alloc d).1

theorem older_copied (m : Machine) (d : Datum) : m.heap.Older (m.copied d).2 :=
  (Heap.older_alloc _ _).trans (Heap.older_alloc _ _)

theorem view_copied (hheap : m.heap.Sound) {d : Datum} (hd : d.isWhole = true) :
    (m.copied d).2.view (m.copied d).1 = d := by
  have hread := Heap.view_alloc hheap hd
  unfold copied Heap.copy
  rw [hread]
  exact Heap.view_alloc (Heap.Change.alloc hheap d).sound hd

/-- **How an assignment ends:** the value is in the cell that the global has, or in a new one. -/
theorem setGlobal_cases (m : Machine) (name : Bytes) (d : Datum) :
    (∃ cell, m.globals.find? name = some cell ∧
      m.setGlobal name d =
        { m with heap := (m.copied d).2, cells := m.cells.setIfInBounds cell (m.copied d).1 }) ∨
    (m.globals.find? name = none ∧
      m.setGlobal name d =
        { m with
          heap := (m.copied d).2
          cells := m.cells.push (m.copied d).1
          globals := m.globals.insert name m.cells.size }) := by
  let s : Session := ⟨{ m with heap := (m.heap.alloc d).2 }, []⟩
  have hset : ∀ cell, s.result (Action.globalCell name) = .ok cell →
      m.setGlobal name d = ((s.after (Action.globalCell name)).after
        (Action.writeCell (some cell) (m.heap.alloc d).1)).machine := by
    intro cell hcell
    have hafter := (Session.bind_of_ok hcell fun cell =>
      Action.writeCell (some cell) (m.heap.alloc d).1).2
    exact congrArg Session.machine hafter
  rcases s.globalCell_cases name with ⟨cell, hfind, hresult, hafter⟩ | ⟨hnone, hresult, hafter⟩
  · left
    refine ⟨cell, hfind, ?_⟩
    rw [hset cell hresult, hafter]
    rfl
  · right
    refine ⟨hnone, ?_⟩
    have hlast : (m.cells.push .nil).setIfInBounds m.cells.size (m.copied d).1
        = m.cells.push (m.copied d).1 := setIfInBounds_push _ _ _
    rw [hset _ hresult, hafter, ← hlast]
    rfl

/-- **What one assignment does.** -/
theorem assigned_setGlobal (hheap : m.heap.Sound) (hglobals : m.GlobalsSound) (name : Bytes)
    {d : Datum} (hd : d.isWhole = true) : m.Assigned [(name, d)] (m.setGlobal name d) := by
  have hview := view_copied hheap hd
  have holder := m.older_copied d
  have hone : ∀ {other d'}, (other, d') ∈ [(name, d)] → other = name ∧ d' = d := by
    intro other d' hmem
    have hpair := List.mem_singleton.mp hmem
    exact ⟨congrArg Prod.fst hpair, congrArg Prod.snd hpair⟩
  rcases m.setGlobal_cases name d with ⟨cell, hfind, hset⟩ | ⟨hnone, hset⟩
  · -- The global exists: its cell is written, and no other one.
    have hlt := hglobals.lt_size name cell hfind
    rw [hset]
    refine ⟨?_, fun _ _ hcell => hcell, fun _ _ hcell => .inl hcell, ?_, ?_, holder, rfl⟩
    · intro other d' hmem
      obtain ⟨rfl, rfl⟩ := hone hmem
      refine ⟨cell, (m.copied d').1, hfind, ?_, hview⟩
      show (m.cells.setIfInBounds cell _)[cell]? = _
      rw [Array.getElem?_setIfInBounds, if_pos rfl, if_pos hlt]
    · intro other _ hfree
      have hne : cell ≠ other := by
        intro heq
        exact hfree name d List.mem_cons_self (heq ▸ hfind)
      show (m.cells.setIfInBounds cell _)[other]? = _
      rw [Array.getElem?_setIfInBounds, if_neg hne]
    · show m.cells.size ≤ (m.cells.setIfInBounds cell _).size
      simp
  · -- The global is new, and so is its cell.
    rw [hset]
    refine ⟨?_, ?_, ?_, ?_, ?_, holder, rfl⟩
    · intro other d' hmem
      obtain ⟨rfl, rfl⟩ := hone hmem
      refine ⟨m.cells.size, (m.copied d').1, NameTable.find?_insert _ _ _, ?_, hview⟩
      show (m.cells.push _)[m.cells.size]? = _
      simp
    · intro other cell hcell
      have hne : other ≠ name := by
        intro heq
        rw [heq, hnone] at hcell
        cases hcell
      show (m.globals.insert name _).find? other = _
      rw [NameTable.find?_insert_of_ne _ hne]
      exact hcell
    · intro other cell hcell
      by_cases hother : other = name
      · subst hother
        have hsize : some m.cells.size = some cell := by
          rw [← hcell]
          exact (NameTable.find?_insert _ _ _).symm
        cases hsize
        exact .inr ⟨⟨d, List.mem_cons_self⟩, Nat.le_refl _⟩
      · rw [NameTable.find?_insert_of_ne _ hother] at hcell
        exact .inl hcell
    · intro cell hlt _
      show (m.cells.push _)[cell]? = _
      rw [Array.getElem?_push, if_neg (by omega)]
    · show m.cells.size ≤ (m.cells.push _).size
      simp

end Machine

theorem Datum.Decoded.isWhole {size levels : Nat} {d : Datum} (hd : d.Decoded size levels) :
    d.isWhole = true := by
  refine hd.every ?_
  intro levels d hd
  cases hd <;> rfl

/-- A name that is not assigned is a global if it was one, and has the value it had. -/
theorem Machine.Assigned.unassigned {s : Session} {values : List (Bytes × Datum)} {m : Machine}
    (ha : s.machine.Assigned values m) (hs : s.Sound) (hglobals : s.machine.GlobalsSound)
    {name : Bytes} (hname : ∀ d, (name, d) ∉ values) :
    m.globals.find? name = s.machine.globals.find? name ∧
      m.globalValue? name = s.machine.globalValue? name := by
  have hfind : m.globals.find? name = s.machine.globals.find? name := by
    cases hnew : m.globals.find? name with
    | some cell =>
      rcases ha.made name cell hnew with hold | ⟨⟨d, hd⟩, -⟩
      · exact hold.symm
      · exact absurd hd (hname d)
    | none =>
      cases hold : s.machine.globals.find? name with
      | none => rfl
      | some cell =>
        rw [ha.kept name cell hold] at hnew
        cases hnew
  refine ⟨hfind, ?_⟩
  unfold Machine.globalValue?
  rw [hfind]
  cases hcell : s.machine.globals.find? name with
  | none => rfl
  | some cell =>
    have hlt := hglobals.lt_size name cell hcell
    have hsame : m.cells[cell]? = s.machine.cells[cell]? := by
      refine ha.cells cell hlt ?_
      intro other d hd hother
      rw [hglobals.apart other name cell hother hcell] at hd
      exact hname d hd
    have hv : s.machine.cells[cell]? = some s.machine.cells[cell] := Array.getElem?_eq_getElem hlt
    have hview : m.heap.view s.machine.cells[cell] = s.machine.heap.view s.machine.cells[cell] :=
      Heap.view_older hs.heap ha.older (hs.slots (.cell cell) _ hv)
    rw [Option.map_some, Option.map_some, hsame, hv, Option.getD_some, hview]

/-- **What a list of assignments does** when its values were decoded and it has one value for
    each name. -/
theorem Session.assigned_foldl {s : Session} (hs : s.Sound) (hglobals : s.machine.GlobalsSound)
    {values : List (Bytes × Datum)}
    (hdecoded : ∀ entry ∈ values, ∃ input, decode input = .ok entry.2)
    (hagree : ∀ name d d', (name, d) ∈ values → (name, d') ∈ values → d = d') :
    s.machine.Assigned values (values.foldl (fun m e => m.setGlobal e.1 e.2) s.machine) := by
  induction values generalizing s with
  | nil => exact Machine.assigned_nil _
  | cons entry rest ih =>
    obtain ⟨name, d⟩ := entry
    obtain ⟨input, hinput⟩ := hdecoded _ List.mem_cons_self
    have hwhole := (decoded_of_decode hinput).isWhole
    have hfirst := Machine.assigned_setGlobal hs.heap hglobals name hwhole
    -- The machine after the first assignment is one that a run leads to.
    obtain ⟨ops, hrun, -⟩ := run_setGlobal_decoded hs name hinput
    have hs' := hrun.sound hs
    have hglobals' := hrun.globalsSound hglobals
    have hrest := ih hs' hglobals' (fun e he => hdecoded e (List.mem_cons_of_mem _ he))
      fun name d d' hd hd' => hagree name d d' (List.mem_cons_of_mem _ hd)
        (List.mem_cons_of_mem _ hd')
    refine hfirst.append hrest hglobals' hs'.heap ?_ ?_
    · exact fun cell v hv => hs'.slots (.cell cell) v hv
    · intro other e e' he he'
      exact hagree other e e' (List.mem_cons.mpr (.inl (List.mem_singleton.mp he)))
        (List.mem_cons_of_mem _ he')

/-! ## Reading all rows -/

/-- An open image whose rows can all be **read:** each has a time and decodes. -/
structure Image.Readable (image : Image) (rows : NameTable Row) : Prop where
  isOpen : image.isOpen = true
  rows_eq : image.rows? = some rows
  times : ∀ entry ∈ rows, ∃ now, entry.2.savedAt = .time now
  decodes : ∀ name row, rows.find? name = some row → ∃ d, decode row.data = .ok d

namespace Image

variable {image : Image} {rows : NameTable Row}

theorem Readable.get (hr : image.Readable rows) {name : Bytes} {row : Row} {d : Datum}
    (hrow : rows.find? name = some row) (hd : decode row.data = .ok d) :
    image.get name = .ok d := by
  rw [get_eq hr.isOpen hr.rows_eq, hrow]
  simp only [hd]
  rfl

/-- **The values of a readable image:** the decoded rows, by name. -/
theorem Readable.exists_values (hr : image.Readable rows) :
    ∃ values, image.values = .ok values ∧ values.length = rows.length ∧
      ∀ name d, (name, d) ∈ values ↔
        ∃ row, rows.find? name = some row ∧ decode row.data = .ok d := by
  obtain ⟨entries, hentries, -, hnames⟩ := exists_entries hr.isOpen hr.rows_eq hr.times
  have hvalues : image.values = rows.names.mapM fun name => do
      return (name, ← image.get name) := by
    rw [Image.values, Image.names, hentries, ok_bind, hnames]
    rfl
  have hall : ∀ name ∈ rows.names, ∃ entry, (do
      return (name, ← image.get name) : Except ImageError (Bytes × Datum)) = .ok entry := by
    intro name hname
    obtain ⟨row, hrow⟩ := (NameTable.mem_names_iff rows name).mp hname
    obtain ⟨d, hd⟩ := hr.decodes name row hrow
    rw [hr.get hrow hd]
    exact ⟨(name, d), rfl⟩
  obtain ⟨values, hmap⟩ := exists_mapM hall
  refine ⟨values, by rw [hvalues, hmap], ?_, ?_⟩
  · have hfirst : values.map Prod.fst = rows.names.map id := by
      refine map_of_mapM hmap ?_
      intro name _ entry hentry
      obtain ⟨d, -, hdone⟩ := bind_eq_ok hentry
      cases hdone
      rfl
    simpa [NameTable.names] using congrArg List.length hfirst
  · intro name d
    constructor
    · intro hmem
      obtain ⟨name', hname', hentry⟩ := mem_of_mapM hmap hmem
      obtain ⟨row, hrow⟩ := (NameTable.mem_names_iff rows name').mp hname'
      obtain ⟨d', hd'⟩ := hr.decodes name' row hrow
      rw [hr.get hrow hd'] at hentry
      cases hentry
      exact ⟨row, hrow, hd'⟩
    · rintro ⟨row, hrow, hd⟩
      have hname : name ∈ rows.names := (NameTable.mem_names_iff rows name).mpr ⟨row, hrow⟩
      obtain ⟨entry, hentry, hstep⟩ := result_of_mapM hmap hname
      rw [hr.get hrow hd] at hstep
      cases hstep
      exact hentry

/-- Only a readable image has values. -/
theorem readable_of_values {values : List (Bytes × Datum)} (hok : image.values = .ok values) :
    ∃ rows, image.Readable rows := by
  obtain ⟨names, hnames, hmap⟩ := bind_eq_ok hok
  obtain ⟨entries, hentries, hdone⟩ := bind_eq_ok hnames
  cases hdone
  obtain ⟨rows, hrows, hsummaries⟩ := bind_eq_ok hentries
  obtain ⟨hopen, hrows?⟩ := rows_eq_ok_iff.mp hrows
  have htimes : ∀ entry ∈ rows, ∃ now, entry.2.savedAt = .time now := by
    intro entry hentry
    obtain ⟨result, -, hsummary⟩ := result_of_mapM hsummaries hentry
    exact ⟨_, (summary_eq_ok_iff.mp hsummary).2.2.1⟩
  obtain ⟨entries', hentries', -, hnames'⟩ := exists_entries hopen hrows? htimes
  rw [hentries] at hentries'
  cases hentries'
  refine ⟨rows, hopen, hrows?, htimes, ?_⟩
  intro name row hrow
  have hname : name ∈ entries.map (·.name) := by
    rw [hnames']
    exact (NameTable.mem_names_iff rows name).mpr ⟨row, hrow⟩
  obtain ⟨entry, -, hstep⟩ := result_of_mapM hmap hname
  obtain ⟨d, hget, -⟩ := bind_eq_ok hstep
  rw [get_eq hopen hrows?, hrow] at hget
  exact ⟨d, mapError_eq_ok hget⟩

end Image

/-! ## All or nothing -/

/-- **A loaded runtime:** what loading rows makes of a runtime. -/
structure Machine.Loaded (m : Machine) (rows : NameTable Row) (m' : Machine) : Prop where
  /-- Every stored name is a global that holds the decoded value of its row, in the cell that it
      had if there was one. -/
  stored : ∀ name row, rows.find? name = some row → ∃ (d : Datum) (cell : Nat) (v : Value),
    decode row.data = .ok d ∧ m'.globals.find? name = some cell ∧
      m'.cells[cell]? = some v ∧ m'.heap.view v = d ∧
        ∀ old, m.globals.find? name = some old → old = cell
  /-- Every other name is a global if it was one, with the same cell and the same value. -/
  others : ∀ name, rows.find? name = none →
    m'.globals.find? name = m.globals.find? name ∧ m'.globalValue? name = m.globalValue? name
  /-- A cell that no stored name had holds what it held. -/
  cells : ∀ cell : Nat, cell < m.cells.size →
    (∀ name row, rows.find? name = some row → m.globals.find? name ≠ some cell) →
    m'.cells[cell]? = m.cells[cell]?
  /-- Every value that was valid holds what it held. -/
  contents : ∀ v, m.heap.Valid v → m'.heap.view v = m.heap.view v
  /-- Functions capture the same cells, and nothing else of the runtime changes. -/
  rest : m' = { m with heap := m'.heap, cells := m'.cells, globals := m'.globals }

theorem Session.loaded_of_assigned {s : Session} (hs : s.Sound)
    (hglobals : s.machine.GlobalsSound) {rows : NameTable Row}
    {values : List (Bytes × Datum)} {m : Machine} (ha : s.machine.Assigned values m)
    (hdecodes : ∀ name row, rows.find? name = some row → ∃ d, decode row.data = .ok d)
    (hmem : ∀ name d, (name, d) ∈ values ↔
      ∃ row, rows.find? name = some row ∧ decode row.data = .ok d) :
    s.machine.Loaded rows m where
  stored := by
    intro name row hrow
    obtain ⟨d, hd⟩ := hdecodes name row hrow
    obtain ⟨cell, v, hcell, hv, hview⟩ := ha.stored name d ((hmem name d).mpr ⟨row, hrow, hd⟩)
    refine ⟨d, cell, v, hd, hcell, hv, hview, ?_⟩
    intro old hold
    have hkept := ha.kept name old hold
    rw [hcell] at hkept
    cases hkept
    rfl
  others := by
    intro name hnone
    have hunassigned : ∀ d, (name, d) ∉ values := by
      intro d hd
      obtain ⟨row, hrow, -⟩ := (hmem name d).mp hd
      rw [hnone] at hrow
      cases hrow
    exact ha.unassigned hs hglobals hunassigned
  cells := by
    intro cell hlt hfree
    refine ha.cells cell hlt ?_
    intro name d hd
    obtain ⟨row, hrow, -⟩ := (hmem name d).mp hd
    exact hfree name row hrow
  contents := fun v hv => Heap.view_older hs.heap ha.older hv
  rest := ha.rest

/-- **A load does all or nothing.** It succeeds exactly when every row can be read; then it counts
    the rows and the runtime is loaded with them. Else it leaves the runtime as it was. -/
theorem load_all_or_nothing {id name : Bytes} {writable : Bool} {ops : List Operation}
    {s : Session} (hrun : Run (.new id name writable) ops s) (image : Image) :
    (∃ rows m, image.Readable rows ∧ image.load.run s.machine = (.ok rows.length, m) ∧
      s.machine.Loaded rows m) ∨
    (∀ rows, ¬ image.Readable rows) ∧
      ∃ e, image.load.run s.machine = (.error e, s.machine) := by
  have hs := hrun.sound (Session.sound_new id name writable)
  have hglobals := hrun.globalsSound (Session.globalsSound_new id name writable)
  rw [Image.run_load]
  cases hvalues : image.values with
  | error e =>
    right
    refine ⟨?_, e, rfl⟩
    intro rows hr
    obtain ⟨values, hok, -⟩ := hr.exists_values
    rw [hvalues] at hok
    cases hok
  | ok values =>
    left
    obtain ⟨rows, hr⟩ := Image.readable_of_values hvalues
    obtain ⟨values', hvalues', hlength, hmem⟩ := hr.exists_values
    rw [hvalues] at hvalues'
    cases hvalues'
    have hdecoded : ∀ entry ∈ values, ∃ input, decode input = .ok entry.2 :=
      fun entry hentry => Image.decoded_of_values hvalues hentry
    have hagree : ∀ name d d', (name, d) ∈ values → (name, d') ∈ values → d = d' := by
      intro name d d' hd hd'
      obtain ⟨row, hrow, hdecode⟩ := (hmem name d).mp hd
      obtain ⟨row', hrow', hdecode'⟩ := (hmem name d').mp hd'
      rw [hrow] at hrow'
      cases hrow'
      rw [hdecode] at hdecode'
      cases hdecode'
      rfl
    have hassigned := s.assigned_foldl hs hglobals hdecoded hagree
    refine ⟨rows, _, hr, ?_, s.loaded_of_assigned hs hglobals hassigned hr.decodes hmem⟩
    rw [← hlength]

/-- Two rows for a runtime that has one of the globals. When both can be read, the value is in the
    cell that the global had. When the second cannot be decoded, the first is not assigned. -/
theorem second_row_decides_load :
    let s := (Session.new [0x31] [] true).perform (.globalCell [0x67])
    let rows (second : Bytes) : NameTable Row :=
      [([0x67], ⟨[0xa2, 0x01, 0x01, 0x02, 0xf5], [0x72], .time 1⟩),
        ([0x68], ⟨second, [0x72], .time 1⟩)]
    let image (second : Bytes) := (Image.new []).withRows (rows second)
    (∃ m v, (image [0xf6]).load.run s.machine = (.ok 2, m) ∧ m.globals.find? [0x67] = some 0 ∧
      m.cells[0]? = some v ∧ m.heap.view v = .boolean true) ∧
    ∃ e, (image [0xff]).load.run s.machine = (.error e, s.machine) := by
  intro s rows image
  have hrun : Run (.new [0x31] [] true) [.globalCell [0x67]] s :=
    .single fun v hv => by cases hv
  constructor
  · have hreadable : (image [0xf6]).Readable (rows [0xf6]) := by
      refine ⟨rfl, rfl, by simp [rows], ?_⟩
      intro name row hrow
      have hmem := NameTable.mem_of_find? hrow
      simp only [rows, List.mem_cons, List.not_mem_nil, or_false, Prod.mk.injEq] at hmem
      rcases hmem with ⟨-, rfl⟩ | ⟨-, rfl⟩
      · exact ⟨.boolean true, rfl⟩
      · exact ⟨.nil, rfl⟩
    rcases load_all_or_nothing hrun (image [0xf6]) with ⟨rows', m, hr, hload, hloaded⟩ | ⟨hnone, -⟩
    · cases hr.rows_eq
      obtain ⟨d, cell, v, hd, hcell, hv, hview, hsame⟩ := hloaded.stored [0x67] _ rfl
      cases hd
      cases hsame 0 rfl
      exact ⟨m, v, hload, hcell, hv, hview⟩
    · exact absurd hreadable (hnone _)
  · rcases load_all_or_nothing hrun (image [0xff]) with ⟨rows', m, hr, -, -⟩ | ⟨-, hfails⟩
    · cases hr.rows_eq
      obtain ⟨d, hd⟩ := hr.decodes [0x68] _ rfl
      cases hd
    · exact hfails

end ValueRuntime
