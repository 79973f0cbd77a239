import ValueRuntime.NameTable

/-! # Tables as finite maps

    A table is used through `find?`. What inserting and erasing do to the answers of `find?`
    holds of every table. A table in strict order has besides each name once, so that its
    entries are exactly these answers.
-/

namespace ValueRuntime

theorem Bytes.less_iff (a b : Bytes) : Bytes.less a b = true ↔ a < b := decide_eq_true_iff

/-- What is found in a list of names and things is in it. -/
theorem mem_of_lookup {κ α : Type} [BEq κ] [LawfulBEq κ] {key : κ} {a : α} {entries : List (κ × α)}
    (ha : entries.lookup key = some a) : (key, a) ∈ entries := by
  obtain ⟨before, after, rfl, -⟩ := List.lookup_eq_some_iff.mp ha
  exact List.mem_append_right before List.mem_cons_self

namespace NameTable

variable {α : Type} {table : NameTable α} {name other : Bytes} {a : α}

/-! ## Answers -/

theorem find?_cons (entry : Bytes × α) (rest : NameTable α) (name : Bytes) :
    NameTable.find? (entry :: rest) name
      = if entry.1 = name then some entry.2 else rest.find? name := by
  unfold NameTable.find?
  by_cases hname : entry.1 = name <;> simp [hname]

theorem find?_insert (table : NameTable α) (name : Bytes) (a : α) :
    (table.insert name a).find? name = some a := by
  induction table with
  | nil => simp [NameTable.insert, find?_cons]
  | cons entry rest ih =>
    rw [NameTable.insert]
    split
    · simp [find?_cons]
    · next hother =>
      split
      · simp [find?_cons]
      · rw [find?_cons, if_neg (by simpa using hother)]
        exact ih

theorem find?_insert_of_ne (table : NameTable α) (hne : other ≠ name) (a : α) :
    (table.insert name a).find? other = table.find? other := by
  have hfirst : ∀ rest : NameTable α,
      NameTable.find? ((name, a) :: rest) other = rest.find? other := by
    intro rest
    rw [find?_cons, if_neg (Ne.symm hne)]
  induction table with
  | nil => exact hfirst []
  | cons entry rest ih =>
    rw [NameTable.insert]
    split
    · next hsame =>
      have hentry : entry.1 ≠ other := by
        rw [eq_of_beq hsame]
        exact Ne.symm hne
      rw [hfirst, find?_cons, if_neg hentry]
    · split
      · exact hfirst _
      · rw [find?_cons, find?_cons, ih]

theorem find?_erase (table : NameTable α) (name other : Bytes) :
    (table.erase name).find? other = if other = name then none else table.find? other := by
  induction table with
  | nil => simp [NameTable.erase, NameTable.find?]
  | cons entry rest ih =>
    unfold NameTable.erase at ih ⊢
    rw [List.filter_cons]
    by_cases hentry : entry.1 = name
    · -- The entry is dropped, and is no answer for another name.
      subst hentry
      simp only [bne_self_eq_false, Bool.false_eq_true, if_false, ih, find?_cons]
      by_cases hother : other = entry.1
      · simp [hother]
      · simp [hother, Ne.symm hother]
    · simp only [bne_iff_ne, ne_eq, hentry, not_false_eq_true, if_true, find?_cons, ih]
      by_cases hother : other = name
      · subst hother
        simp [hentry]
      · simp [hother]

theorem mem_of_find? (hfind : table.find? name = some a) : (name, a) ∈ table := by
  induction table with
  | nil => cases hfind
  | cons entry rest ih =>
    rw [find?_cons] at hfind
    split at hfind
    · next hname =>
      cases hfind
      subst hname
      exact List.mem_cons_self
    · exact List.mem_cons_of_mem _ (ih hfind)

theorem mem_names_iff (table : NameTable α) (name : Bytes) :
    name ∈ table.names ↔ ∃ a, table.find? name = some a := by
  induction table with
  | nil => simp [names, NameTable.find?]
  | cons entry rest ih =>
    have hcons : NameTable.names (entry :: rest) = entry.1 :: NameTable.names rest := rfl
    rw [hcons, List.mem_cons, ih, find?_cons]
    by_cases hname : entry.1 = name
    · simp [hname]
    · simp [hname, Ne.symm hname]

/-! ## Order -/

/-- **A table in order:** every name comes before the names of all later entries. -/
def Ordered (table : NameTable α) : Prop :=
  table.Pairwise fun a b => Bytes.less a.1 b.1 = true

theorem Ordered.erase (ho : table.Ordered) (name : Bytes) : (table.erase name).Ordered :=
  List.Pairwise.sublist List.filter_sublist ho

/-- Inserting adds no other name. -/
theorem mem_insert {entry : Bytes × α} (hentry : entry ∈ table.insert name a) :
    entry = (name, a) ∨ entry ∈ table := by
  induction table with
  | nil => exact .inl (List.mem_singleton.mp hentry)
  | cons first rest ih =>
    rw [NameTable.insert] at hentry
    split at hentry
    · rcases List.mem_cons.mp hentry with rfl | hrest
      · exact .inl rfl
      · exact .inr (List.mem_cons_of_mem _ hrest)
    · split at hentry
      · exact List.mem_cons.mp hentry
      · rcases List.mem_cons.mp hentry with rfl | hrest
        · exact .inr List.mem_cons_self
        · exact (ih hrest).imp_right (List.mem_cons_of_mem _)

theorem Ordered.insert (ho : table.Ordered) (name : Bytes) (a : α) :
    (table.insert name a).Ordered := by
  unfold Ordered at ho ⊢
  induction table with
  | nil => exact List.pairwise_singleton _ _
  | cons entry rest ih =>
    obtain ⟨hfirst, hrest⟩ := List.pairwise_cons.mp ho
    rw [NameTable.insert]
    split
    · -- In place of an entry of the same name.
      next hsame =>
      refine List.pairwise_cons.mpr ⟨?_, hrest⟩
      intro later hlater
      show Bytes.less name later.1 = true
      rw [← eq_of_beq hsame]
      exact hfirst later hlater
    · next hother =>
      split
      · next hbefore =>
        refine List.pairwise_cons.mpr ⟨?_, ho⟩
        intro later hlater
        rcases List.mem_cons.mp hlater with rfl | hlater'
        · exact hbefore
        · have hentry := (Bytes.less_iff _ _).mp (hfirst later hlater')
          exact (Bytes.less_iff _ _).mpr (List.lt_trans ((Bytes.less_iff _ _).mp hbefore) hentry)
      · next hafter =>
        have hlt : entry.1 < name := by
          have hle : ¬ name < entry.1 := fun hlt => hafter ((Bytes.less_iff _ _).mpr hlt)
          exact Std.lt_of_le_of_ne hle (by simpa using hother)
        refine List.pairwise_cons.mpr ⟨?_, ih hrest⟩
        intro later hlater
        rcases mem_insert hlater with rfl | hlater'
        · exact (Bytes.less_iff _ _).mpr hlt
        · exact hfirst later hlater'

/-- The names of a table in order are in strict order themselves. -/
theorem Ordered.names (ho : table.Ordered) :
    table.names.Pairwise fun a b => Bytes.less a b = true :=
  List.pairwise_map.mpr ho

/-- **The entries of a table in order** are the answers that it gives. -/
theorem Ordered.mem_iff (ho : table.Ordered) :
    (name, a) ∈ table ↔ table.find? name = some a := by
  refine ⟨fun hmem => ?_, mem_of_find?⟩
  unfold Ordered at ho
  induction table with
  | nil => cases hmem
  | cons entry rest ih =>
    obtain ⟨hfirst, hrest⟩ := List.pairwise_cons.mp ho
    rw [find?_cons]
    rcases List.mem_cons.mp hmem with rfl | hmem'
    · simp
    · have hne : entry.1 ≠ name := by
        intro heq
        have hlt := (Bytes.less_iff _ _).mp (hfirst _ hmem')
        rw [heq] at hlt
        exact List.lt_irrefl name hlt
      rw [if_neg hne]
      exact ih hrest hmem'

end NameTable

end ValueRuntime
