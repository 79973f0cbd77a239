import ValueRuntime.Image.Globals
import ValueRuntime.Proofs.Codec.Data
import ValueRuntime.Proofs.Image.Statements
import ValueRuntime.Proofs.Machine.Globals

/-! # The history of an image

    An open image is called again and again: values are put into it and deleted, and the
    globals of runtimes are saved. All calls go over one connection. A call fails when something
    cannot be encoded, and a save may have stored other globals by then. Still the image is as it
    was, because the save was a transaction.

    What the image answers is settled by the history alone. Each call has an *effect* on a
    name: it leaves a row for it, or removes its row, or has none. The row of a name is what
    the last call with an effect left, and names, values and entries are answered from it.
-/

namespace ValueRuntime

open Codec

/-! ## Calls -/

/-- A call that may change an open image. -/
inductive Call where
  | put (name : Bytes) (value : Datum) (runtime : Bytes) (now : Int)
  | delete (name : Bytes)
  | save (m : Machine) (now : Int)

/-- Whether a value can be saved or is passed over, because there is a function in it. -/
def Datum.isSavable (d : Datum) : Bool :=
  match encode d with
  | .ok _ => true
  | .error (.failure inner) => inner.cause = .function
  | .error (.fault _) => false

namespace Call

/-- Whether all that has to be encoded can be. -/
def isEncodable : Call → Bool
  | .put _ value _ _ => (encode value).isOk
  | .delete _ => true
  | .save m _ => m.globalValues.all fun entry => entry.2.isSavable

/-- **The effect** of a call on a name: a row, no row any more, or none at all. -/
def effect (call : Call) (name : Bytes) : Option (Option Row) :=
  if !call.isEncodable then none
  else match call with
    | .put target value runtime now =>
      if name = target then (encode value).toOption.map fun data => some ⟨data, runtime, .time now⟩
      else none
    | .delete target => if name = target then some none else none
    | .save m now =>
      ((m.globalValue? name).bind fun value => (encode value).toOption).map fun data =>
        some ⟨data, m.id, .time now⟩

/-- The statement of a call. -/
def statement : Call → Statement Unit
  | .put name value runtime now => .put name value runtime now
  | .delete name => .delete name
  | .save m now => do
    let _ ← Statement.saveGlobals m now
    return ()

/-- The image after a call that succeeds. -/
def perform (image : Image) (call : Call) : Except ImageError Image :=
  (call.statement.outcome image).map (·.2)

/-- A call that saves a runtime saves one that some run has led to. -/
def IsReached : Call → Prop
  | .save m _ => ∃ id name writable ops s, Run (.new id name writable) ops s ∧ s.machine = m
  | _ => True

end Call

/-- The connection after a call, whether it succeeds or fails. -/
def Connection.call (c : Connection) (call : Call) : Connection := (call.statement.run c).2

/-- The image after a history of calls over one connection. -/
def Image.after (image : Image) (calls : List Call) : Image :=
  (calls.foldl Connection.call image.connect).image

/-- **Every call is atomic.** -/
theorem Call.atomic (call : Call) : call.statement.Atomic := by
  cases call with
  | put name value runtime now => exact Statement.atomic_put name value runtime now
  | delete name => exact Statement.atomic_changeRows _ _
  | save m now => exact (Statement.atomic_save m.globalValues m.id now).map fun _ => ()

theorem Image.call_connect (image : Image) (call : Call) :
    image.connect.call call = (call.statement.on image).2.connect :=
  congrArg Prod.snd (call.atomic.run_eq image)

theorem Image.after_cons (image : Image) (call : Call) (calls : List Call) :
    image.after (call :: calls) = (call.statement.on image).2.after calls := by
  unfold Image.after
  rw [List.foldl_cons, call_connect]

/-- No transaction is left open after a history. -/
theorem Image.connect_after (image : Image) (calls : List Call) :
    calls.foldl Connection.call image.connect = (image.after calls).connect := by
  induction calls generalizing image with
  | nil => rfl
  | cons call rest ih => rw [after_cons, ← ih, List.foldl_cons, call_connect]

theorem Image.after_concat (image : Image) (calls : List Call) (call : Call) :
    image.after (calls ++ [call]) = (call.statement.on (image.after calls)).2 := by
  rw [Image.after, List.foldl_append, connect_after, List.foldl_cons, call_connect]
  rfl

/-- **The row of a name** after a history of calls: what the last call with an effect left, or
    the first row if there was none. -/
def rowAfter (first : Option Row) (calls : List Call) (name : Bytes) : Option Row :=
  (calls.reverse.findSome? (·.effect name)).getD first

theorem rowAfter_cons (first : Option Row) (call : Call) (calls : List Call) (name : Bytes) :
    rowAfter first (call :: calls) name
      = rowAfter ((call.effect name).getD first) calls name := by
  unfold rowAfter
  rw [List.reverse_cons, List.findSome?_append]
  cases calls.reverse.findSome? (·.effect name) with
  | some row => rfl
  | none => cases hcall : call.effect name <;> simp [hcall]

/-! ## Rows -/

/-- An open image that **keeps** a row for each name: its rows are in order, and each has a
    time. -/
structure Image.Keeps (image : Image) (table : Bytes → Option Row) : Prop where
  isOpen : image.isOpen = true
  rows : ∃ rows, image.rows? = some rows ∧ rows.Ordered ∧ ∀ name, rows.find? name = table name
  times : ∀ name row, table name = some row → ∃ now, row.savedAt = .time now

theorem Image.keeps_new (path : Bytes) : (Image.new path).Keeps fun _ => none where
  isOpen := rfl
  rows := ⟨[], rfl, List.Pairwise.nil, fun _ => rfl⟩
  times := by
    intro name row hrow
    cases hrow

/-! ## Saving -/

/-- The row that saving values leaves for a name. -/
def savedRow? (runtime : Bytes) (now : Int) (values : NameTable Datum) (name : Bytes) :
    Option Row :=
  ((values.find? name).bind fun value => (encode value).toOption).map fun data =>
    ⟨data, runtime, .time now⟩

theorem savedRow?_cons {runtime : Bytes} {now : Int} {entry : Bytes × Datum}
    {values : NameTable Datum} (name : Bytes) :
    savedRow? runtime now (entry :: values) name =
      if entry.1 = name then (encode entry.2).toOption.map fun data => ⟨data, runtime, .time now⟩
      else savedRow? runtime now values name := by
  unfold savedRow?
  rw [NameTable.find?_cons]
  split <;> rfl

/-- In order, no later entry has the name of the first. -/
theorem savedRow?_first (runtime : Bytes) (now : Int) {entry : Bytes × Datum}
    {values : NameTable Datum} (ho : NameTable.Ordered (entry :: values)) :
    savedRow? runtime now values entry.1 = none := by
  have hnone : values.find? entry.1 = none := by
    cases hfind : values.find? entry.1 with
    | none => rfl
    | some value =>
      have hlater := (List.pairwise_cons.mp ho).1 _ (NameTable.mem_of_find? hfind)
      exact absurd ((Bytes.less_iff _ _).mp hlater) (List.lt_irrefl _)
  unfold savedRow?
  rw [hnone]
  rfl

/-- **A save is stopped** by a value that can neither be stored nor passed over, and fails with the
    error of the encoder. -/
def StopsSave (values : List (Bytes × Datum)) (e : ImageError) : Prop :=
  ∃ entry ∈ values, entry.2.isSavable = false ∧
    ∀ inner, encode entry.2 = .error (.failure inner) → e = .encoding entry.1 inner

theorem StopsSave.cons {values : List (Bytes × Datum)} {e : ImageError}
    (hstops : StopsSave values e) (entry : Bytes × Datum) : StopsSave (entry :: values) e := by
  obtain ⟨later, hlater, hfails⟩ := hstops
  exact ⟨later, List.mem_cons_of_mem _ hlater, hfails⟩

/-- **Rows after a save:** every value could be stored or passed over, and each name has the row
    that was stored for it or the one it had. -/
structure SavedRows (runtime : Bytes) (now : Int) (values : NameTable Datum)
    (rows rows' : NameTable Row) : Prop where
  savable : values.all (fun entry => entry.2.isSavable) = true
  ordered : rows.Ordered → rows'.Ordered
  find? : ∀ name, rows'.find? name = (savedRow? runtime now values name).or (rows.find? name)

section Saving

variable {runtime : Bytes} {now : Int} {values : NameTable Datum} {rows rows' : NameTable Row}
  {name : Bytes} {value : Datum}

/-- A value that is passed over leaves the rows to the others. -/
theorem SavedRows.pass (ho : NameTable.Ordered ((name, value) :: values))
    (hsavable : value.isSavable = true) {e : EncodeError} (hencode : encode value = .error e)
    (hrest : SavedRows runtime now values rows rows') :
    SavedRows runtime now ((name, value) :: values) rows rows' where
  savable := by
    rw [List.all_cons, hsavable, hrest.savable]
    rfl
  ordered := hrest.ordered
  find? := by
    intro other
    rw [hrest.find?, savedRow?_cons]
    by_cases hname : name = other
    · subst hname
      rw [if_pos rfl, savedRow?_first runtime now ho, hencode]
      rfl
    · rw [if_neg hname]

/-- A value that is stored has its row, and no later value is stored under its name. -/
theorem SavedRows.insert (ho : NameTable.Ordered ((name, value) :: values)) {data : Bytes}
    (hencode : encode value = .ok data)
    (hrest : SavedRows runtime now values (rows.insert name ⟨data, runtime, .time now⟩) rows') :
    SavedRows runtime now ((name, value) :: values) rows rows' where
  savable := by
    have hsavable : value.isSavable = true := by simp [Datum.isSavable, hencode]
    rw [List.all_cons, hsavable, hrest.savable]
    rfl
  ordered := fun hrows => hrest.ordered (hrows.insert name _)
  find? := by
    intro other
    rw [hrest.find?, savedRow?_cons]
    by_cases hname : name = other
    · subst hname
      rw [if_pos rfl, savedRow?_first runtime now ho, hencode, NameTable.find?_insert]
      rfl
    · rw [if_neg hname, NameTable.find?_insert_of_ne _ (Ne.symm hname)]

/-- **What storing values does in a transaction.** Either a value stops it, or it counts the values
    that it has stored and leaves their rows in the transaction. -/
theorem putAll_cases (runtime : Bytes) (now : Int) (ho : values.Ordered) (image : Image)
    {work : Image} (hopen : work.isOpen = true) (hrows : work.rows? = some rows) :
    (∃ e, ((Statement.putAll runtime now values).run ⟨image, some work⟩).1 = .error e ∧
        StopsSave values e) ∨
      ∃ rows', (Statement.putAll runtime now values).run ⟨image, some work⟩
          = (.ok (values.countP fun entry => (encode entry.2).isOk),
              ⟨image, some (work.withRows rows')⟩) ∧
        SavedRows runtime now values rows rows' := by
  induction values generalizing work rows with
  | nil =>
    have hsame : work.withRows rows = work := by
      unfold Image.withRows
      rw [← hrows]
    refine .inr ⟨rows, ?_, rfl, id, fun _ => rfl⟩
    rw [hsame]
    rfl
  | cons entry rest ih =>
    obtain ⟨name, value⟩ := entry
    have hrest : NameTable.Ordered rest := (List.pairwise_cons.mp ho).2
    rw [Statement.putAll, List.countP_cons]
    cases hencode : encode value with
    | error e =>
      cases e with
      | fault cause =>
        refine .inl ⟨.fault cause, rfl, _, List.mem_cons_self, ?_, fun inner hinner => ?_⟩
        · simp [Datum.isSavable, hencode]
        · rw [hencode] at hinner
          cases hinner
      | failure inner =>
        by_cases hfunction : inner.cause = .function
        · -- A function is passed over, and the rest decides.
          simp only [hfunction, if_true]
          rcases ih hrest hopen hrows with ⟨e, herror, hstops⟩ | ⟨rows', hrun, hsaved⟩
          · exact .inl ⟨e, herror, hstops.cons _⟩
          · refine .inr ⟨rows', hrun, hsaved.pass ho ?_ hencode⟩
            simp [Datum.isSavable, hencode, hfunction]
        · simp only [hfunction, if_false]
          refine .inl ⟨.encoding name inner, rfl, _, List.mem_cons_self, ?_, ?_⟩
          · simp [Datum.isSavable, hencode, hfunction]
          · intro inner' hinner
            rw [hencode] at hinner
            cases hinner
            rfl
    | ok data =>
      -- The row goes to the transaction, and the rest begins with it.
      have hinsert : (Statement.insert name data runtime now).run ⟨image, some work⟩
          = (.ok (), ⟨image, some (work.withRows
              (rows.insert name ⟨data, runtime, .time now⟩))⟩) := by
        unfold Statement.insert
        rw [Statement.run_changeRows_pending, Image.rows_eq_ok_iff.mpr ⟨hopen, hrows⟩]
      have hwork : (work.withRows (rows.insert name ⟨data, runtime, .time now⟩)).isOpen = true :=
        hopen
      simp only
      rw [run_bind_of_ok hinsert]
      rcases ih hrest hwork rfl with ⟨e, herror, hstops⟩ | ⟨rows', hrun, hsaved⟩
      · refine .inl ⟨e, ?_, hstops.cons _⟩
        rw [run_bind_of_error (Prod.ext herror rfl)]
      · refine .inr ⟨rows', ?_, hsaved.insert ho hencode⟩
        rw [run_bind_of_ok hrun]
        rfl

/-- **What saving leaves** of an open image: an error, or all rows at once. -/
theorem save_cases (runtime : Bytes) (now : Int) (ho : values.Ordered) {image : Image}
    (hopen : image.isOpen = true) (hrows : image.rows? = some rows) :
    (∃ e, ((Statement.save values runtime now).on image).1 = .error e ∧ StopsSave values e) ∨
      ∃ rows', (Statement.save values runtime now).on image
          = (.ok (values.countP fun entry => (encode entry.2).isOk), image.withRows rows') ∧
        SavedRows runtime now values rows rows' := by
  rcases putAll_cases runtime now ho image hopen hrows with
    ⟨e, herror, hstops⟩ | ⟨rows', hrun, hsaved⟩
  · have hrun := Statement.run_atomically_of_error hopen (Prod.ext herror rfl)
    exact .inl ⟨e, congrArg Prod.fst (Statement.on_of_run hrun), hstops⟩
  · exact .inr ⟨rows', Statement.on_of_run (Statement.run_atomically_of_ok hopen hrun), hsaved⟩

end Saving

theorem find?_globalValues (m : Machine) (name : Bytes) :
    NameTable.find? m.globalValues name = m.globalValue? name := by
  unfold Machine.globalValues Machine.globalValue?
  induction m.globals with
  | nil => rfl
  | cons entry rest ih =>
    obtain ⟨first, cell⟩ := entry
    rw [List.map_cons, NameTable.find?_cons, NameTable.find?_cons, ih]
    by_cases hfirst : first = name <;> simp [hfirst]

theorem ordered_globalValues {m : Machine} (ho : m.globals.Ordered) :
    NameTable.Ordered m.globalValues :=
  List.pairwise_map.mpr ho

namespace Image

variable {image image' : Image} {m : Machine} {rows : NameTable Row} {now : Int}

/-- A save that succeeds counts the globals that were encoded, and leaves their rows. -/
theorem savedRows_of_saveGlobals (ho : m.globals.Ordered) (hopen : image.isOpen = true)
    (hrows : image.rows? = some rows) {count : Nat}
    (hsave : image.saveGlobals m now = .ok (count, image')) :
    (count = m.globalValues.countP fun entry => (encode entry.2).isOk) ∧
      ∃ rows', image' = image.withRows rows' ∧ SavedRows m.id now m.globalValues rows rows' := by
  have hon := Statement.outcome_eq_ok_iff.mp hsave
  unfold Statement.saveGlobals at hon
  rcases save_cases m.id now (ordered_globalValues ho) hopen hrows with
    ⟨e, herror, -⟩ | ⟨rows', hok, hsaved⟩
  · rw [hon] at herror
    cases herror
  · rw [hok] at hon
    cases hon
    exact ⟨rfl, rows', rfl, hsaved⟩

/-- A save that fails was stopped by a global. -/
theorem stopsSave_of_saveGlobals (ho : m.globals.Ordered) (hopen : image.isOpen = true)
    (hrows : image.rows? = some rows) {e : ImageError}
    (hsave : image.saveGlobals m now = .error e) : StopsSave m.globalValues e := by
  have hon := Statement.outcome_eq_error_iff.mp hsave
  unfold Statement.saveGlobals at hon
  rcases save_cases m.id now (ordered_globalValues ho) hopen hrows with
    ⟨e', herror, hstops⟩ | ⟨rows', hok, -⟩
  · rw [hon] at herror
    cases herror
    exact hstops
  · rw [hok] at hon
    cases hon

end Image

/-! ## Effects -/

namespace Call

theorem effect_of_not_encodable {call : Call} (hcall : call.isEncodable = false) (name : Bytes) :
    call.effect name = none := by
  simp [effect, hcall]

theorem effect_put {value : Datum} {data : Bytes} (hencode : encode value = .ok data)
    (target runtime : Bytes) (now : Int) (name : Bytes) :
    (Call.put target value runtime now).effect name
      = if name = target then some (some ⟨data, runtime, .time now⟩) else none := by
  simp [effect, isEncodable, hencode, Except.toOption, Except.isOk, Except.toBool]

theorem effect_delete (target name : Bytes) :
    (Call.delete target).effect name = if name = target then some none else none := by
  simp [effect, isEncodable]

theorem effect_save {m : Machine} {now : Int} (hsave : (Call.save m now).isEncodable = true)
    (name : Bytes) :
    (Call.save m now).effect name = (savedRow? m.id now m.globalValues name).map some := by
  simp only [effect, hsave, savedRow?, find?_globalValues, Option.map_map]
  rfl

/-- A row that a call leaves has a time. -/
theorem time_of_effect {call : Call} {name : Bytes} {row : Row}
    (heffect : call.effect name = some (some row)) : ∃ now, row.savedAt = .time now := by
  unfold effect at heffect
  split at heffect
  · cases heffect
  · cases call with
    | put target value runtime now =>
      simp only at heffect
      split at heffect
      · obtain ⟨data, -, hrow⟩ := Option.map_eq_some_iff.mp heffect
        cases hrow
        exact ⟨now, rfl⟩
      · cases heffect
    | delete target =>
      simp only at heffect
      split at heffect <;> cases heffect
    | save m now =>
      obtain ⟨data, -, hrow⟩ := Option.map_eq_some_iff.mp heffect
      cases hrow
      exact ⟨now, rfl⟩

end Call

/-! ## One call -/

namespace Image

variable {image : Image} {table : Bytes → Option Row}

/-- Rows in order that have the effect of a call on each name are what the image keeps then. -/
theorem Keeps.withRows (hk : image.Keeps table) (call : Call) {rows : NameTable Row}
    (ho : rows.Ordered)
    (hfind : ∀ name, rows.find? name = (call.effect name).getD (table name)) :
    (image.withRows rows).Keeps fun name => (call.effect name).getD (table name) := by
  refine ⟨hk.isOpen, ⟨rows, rfl, ho, hfind⟩, ?_⟩
  intro name row hrow
  cases heffect : call.effect name with
  | none =>
    rw [heffect] at hrow
    exact hk.times name row hrow
  | some left =>
    rw [heffect] at hrow
    cases hrow
    exact Call.time_of_effect heffect

/-- A change of the rows that has the effect of a call on each name. -/
theorem Keeps.changeRows (hk : image.Keeps table) (call : Call) (attempt : Attempt)
    {change : NameTable Row → NameTable Row}
    (hordered : ∀ rows : NameTable Row, rows.Ordered → (change rows).Ordered)
    (hchange : ∀ (rows : NameTable Row) name,
      (change rows).find? name = (call.effect name).getD (rows.find? name)) :
    ∃ image', (Statement.changeRows attempt change).on image = (.ok (), image') ∧
      image'.Keeps fun name => (call.effect name).getD (table name) := by
  obtain ⟨rows, hrows, ho, hfind⟩ := hk.rows
  refine ⟨image.withRows (change rows), ?_, hk.withRows call (hordered rows ho) ?_⟩
  · rw [Statement.on_changeRows, rows_eq_ok_iff.mpr ⟨hk.isOpen, hrows⟩]
  · intro name
    rw [hchange, hfind]

theorem Keeps.put (hk : image.Keeps table) {value : Datum} {data : Bytes}
    (hencode : encode value = .ok data) (target runtime : Bytes) (now : Int) :
    ∃ image', (Statement.put target value runtime now).on image = (.ok (), image') ∧
      image'.Keeps fun name =>
        ((Call.put target value runtime now).effect name).getD (table name) := by
  unfold Statement.put
  rw [hencode]
  refine hk.changeRows _ _ (fun rows ho => ho.insert _ _) ?_
  intro rows name
  rw [Call.effect_put hencode]
  by_cases hname : name = target
  · rw [if_pos hname, hname, NameTable.find?_insert]
    rfl
  · rw [if_neg hname, NameTable.find?_insert_of_ne _ hname]
    rfl

theorem Keeps.delete (hk : image.Keeps table) (target : Bytes) :
    ∃ image', (Statement.delete target).on image = (.ok (), image') ∧
      image'.Keeps fun name => ((Call.delete target).effect name).getD (table name) := by
  refine hk.changeRows _ _ (fun rows ho => ho.erase target) ?_
  intro rows name
  rw [Call.effect_delete, NameTable.find?_erase]
  split <;> rfl

theorem Keeps.save (hk : image.Keeps table) {m : Machine} (hm : m.globals.Ordered) (now : Int) :
    (∃ e, ((Statement.saveGlobals m now).on image).1 = .error e ∧
        (Call.save m now).isEncodable = false) ∨
      ∃ count image', (Statement.saveGlobals m now).on image = (.ok count, image') ∧
        (Call.save m now).isEncodable = true ∧
        image'.Keeps fun name => ((Call.save m now).effect name).getD (table name) := by
  obtain ⟨rows, hrows, ho, hfind⟩ := hk.rows
  unfold Statement.saveGlobals
  rcases save_cases m.id now (ordered_globalValues hm) hk.isOpen hrows with
    ⟨e, herror, entry, hentry, hfails, -⟩ | ⟨rows', hok, hsaved⟩
  · refine .inl ⟨e, herror, List.all_eq_false.mpr ⟨entry, hentry, ?_⟩⟩
    rw [hfails]
    exact Bool.false_ne_true
  · refine .inr ⟨_, image.withRows rows', hok, hsaved.savable, ?_⟩
    refine hk.withRows _ (hsaved.ordered ho) ?_
    intro name
    rw [Call.effect_save hsaved.savable, hsaved.find?, hfind]
    cases savedRow? m.id now m.globalValues name <;> rfl

/-- **What one call does:** it fails when something cannot be encoded, and else the image keeps
    its effect on each name. -/
theorem Keeps.on_call (hk : image.Keeps table) {call : Call} (hcall : call.IsReached) :
    (∃ e, (call.statement.on image).1 = .error e ∧ call.isEncodable = false) ∨
      ∃ image', call.statement.on image = (.ok (), image') ∧ call.isEncodable = true ∧
        image'.Keeps fun name => (call.effect name).getD (table name) := by
  cases call with
  | put target value runtime now =>
    cases hencode : encode value with
    | ok data =>
      obtain ⟨image', hput, hk'⟩ := hk.put hencode target runtime now
      have hencodable : (Call.put target value runtime now).isEncodable = true := by
        simp [Call.isEncodable, hencode, Except.isOk, Except.toBool]
      exact .inr ⟨image', hput, hencodable, hk'⟩
    | error e =>
      left
      have hfails : ∃ e', ((Statement.put target value runtime now).on image).1 = .error e' := by
        unfold Statement.put
        rw [hencode]
        cases e with
        | fault cause => exact ⟨_, rfl⟩
        | failure inner => exact ⟨_, rfl⟩
      obtain ⟨e', he'⟩ := hfails
      exact ⟨e', he', by simp [Call.isEncodable, hencode, Except.isOk, Except.toBool]⟩
  | delete target =>
    obtain ⟨image', hdelete, hk'⟩ := hk.delete target
    exact .inr ⟨image', hdelete, rfl, hk'⟩
  | save m now =>
    obtain ⟨id, runtime, writable, ops, s, hrun, rfl⟩ := hcall
    have hglobals := hrun.globalsSound (Session.globalsSound_new id runtime writable)
    have hsave := Statement.on_map (Statement.saveGlobals s.machine now) (fun _ => ()) image
    rcases hk.save hglobals.ordered now with
      ⟨e, herror, hall⟩ | ⟨count, image', hok, hall, hk'⟩
    · rw [herror] at hsave
      exact .inl ⟨e, congrArg Prod.fst hsave, hall⟩
    · rw [hok] at hsave
      exact .inr ⟨image', hsave, hall, hk'⟩

theorem Keeps.call (hk : image.Keeps table) {call : Call} (hcall : call.IsReached) :
    (call.statement.on image).2.Keeps fun name => (call.effect name).getD (table name) := by
  rcases hk.on_call hcall with ⟨e, herror, hencodable⟩ | ⟨image', hok, -, hk'⟩
  · -- A call that fails has no effect on any name.
    rw [call.atomic.on_of_error herror]
    simp only [Call.effect_of_not_encodable hencodable]
    exact hk
  · rw [hok]
    exact hk'

/-- **What a history does.** -/
theorem Keeps.after (hk : image.Keeps table) {calls : List Call}
    (hcalls : ∀ call ∈ calls, call.IsReached) :
    (image.after calls).Keeps fun name => rowAfter (table name) calls name := by
  induction calls generalizing image table with
  | nil => exact hk
  | cons call rest ih =>
    have hfirst := hk.call (hcalls call List.mem_cons_self)
    have hrest := ih hfirst fun call' hcall' => hcalls call' (List.mem_cons_of_mem _ hcall')
    simp only [after_cons, rowAfter_cons]
    exact hrest

/-! ## Answers -/

/-- **What an image answers** when it keeps a row for each name. -/
structure Answers (image : Image) (table : Bytes → Option Row) : Prop where
  /-- The names are in strict order, and are those that have a row. -/
  names : ∃ names, image.names = .ok names ∧ names.Pairwise (fun a b => Bytes.less a b = true) ∧
    ∀ name, name ∈ names ↔ ∃ row, table name = some row
  /-- The value of a name is decoded from its row. -/
  get : ∀ name, image.get name = match table name with
    | some row => (decode row.data).mapError (.decoding name)
    | none => .error (.notFound name)
  /-- The entries tell the runtime, the time and the length of each row, in the same order. -/
  entries : ∃ entries, image.entries = .ok entries ∧
    (entries.map (·.name)).Pairwise (fun a b => Bytes.less a b = true) ∧
    ∀ entry, entry ∈ entries ↔ ∃ row, table entry.name = some row ∧ row.runtime = entry.runtime ∧
      row.savedAt = .time entry.savedAt ∧ row.data.length = entry.size

theorem Keeps.entries (hk : image.Keeps table) :
    ∃ entries, image.entries = .ok entries ∧
      (entries.map (·.name)).Pairwise (fun a b => Bytes.less a b = true) ∧
      ∀ entry, entry ∈ entries ↔ ∃ row, table entry.name = some row ∧
        row.runtime = entry.runtime ∧ row.savedAt = .time entry.savedAt ∧
          row.data.length = entry.size := by
  obtain ⟨rows, hrows, ho, hfind⟩ := hk.rows
  have htimes : ∀ entry ∈ rows, ∃ now, entry.2.savedAt = .time now := by
    intro entry hentry
    exact hk.times entry.1 entry.2 (by rw [← hfind, ← ho.mem_iff]; exact hentry)
  obtain ⟨entries, hentries, hsummaries, hnames⟩ := exists_entries hk.isOpen hrows htimes
  refine ⟨entries, hentries, ?_, ?_⟩
  · rw [hnames]
    exact ho.names
  · intro entry
    constructor
    · intro hentry
      obtain ⟨⟨name, row⟩, hrow, hsummary⟩ := mem_of_mapM hsummaries hentry
      obtain ⟨rfl, hrest⟩ := summary_eq_ok_iff.mp hsummary
      exact ⟨row, by rw [← hfind, ← ho.mem_iff]; exact hrow, hrest⟩
    · rintro ⟨row, hrow, hrest⟩
      rw [← hfind, ← ho.mem_iff] at hrow
      obtain ⟨result, hresult, hsummary⟩ := result_of_mapM hsummaries hrow
      rw [summary_eq_ok_iff.mpr ⟨rfl, hrest⟩] at hsummary
      cases hsummary
      exact hresult

/-- The answers of an image that keeps a row for each name. -/
theorem Keeps.answers (hk : image.Keeps table) : image.Answers table where
  names := by
    obtain ⟨entries, hentries, hordered, hmem⟩ := hk.entries
    refine ⟨entries.map (·.name), ?_, hordered, ?_⟩
    · rw [Image.names, hentries]
      rfl
    · intro name
      rw [List.mem_map]
      constructor
      · rintro ⟨entry, hentry, rfl⟩
        obtain ⟨row, hrow, -⟩ := (hmem entry).mp hentry
        exact ⟨row, hrow⟩
      · rintro ⟨row, hrow⟩
        obtain ⟨now, hnow⟩ := hk.times name row hrow
        exact ⟨⟨name, row.runtime, now, row.data.length⟩,
          (hmem _).mpr ⟨row, hrow, rfl, hnow, rfl⟩, rfl⟩
  get := by
    intro name
    obtain ⟨rows, hrows, -, hfind⟩ := hk.rows
    have hget := get_eq hk.isOpen hrows name
    rw [hfind] at hget
    exact hget
  entries := hk.entries

end Image

/-- **An image is a finite map from names to encoded values,** after every history of calls.

    * Its answers are settled by what the last call with an effect on a name left for it.
    * A call fails exactly when something cannot be encoded, and then nothing changes.
    * A save that succeeds leaves a row for each global that can be encoded, and all other rows
      as they were. -/
theorem image_answers_last_writes {image : Image} {table : Bytes → Option Row}
    (hk : image.Keeps table) {calls : List Call} (hcalls : ∀ call ∈ calls, call.IsReached) :
    let row := fun name => rowAfter (table name) calls name
    (image.after calls).Answers row ∧
      (∀ call : Call, call.IsReached →
        ((∃ e, call.perform (image.after calls) = .error e) ↔ call.isEncodable = false) ∧
        (call.isEncodable = false → image.after (calls ++ [call]) = image.after calls)) ∧
      ∀ m now, (Call.save m now).IsReached → (Call.save m now).isEncodable = true →
        (image.after (calls ++ [.save m now])).Answers fun name =>
          match (m.globalValue? name).bind fun value => (encode value).toOption with
          | some data => some ⟨data, m.id, .time now⟩
          | none => row name := by
  intro row
  have hafter := hk.after hcalls
  refine ⟨hafter.answers, ?_, ?_⟩
  · intro call hcall
    rcases hafter.on_call hcall with ⟨e, herror, hfails⟩ | ⟨image', hok, hencodable, -⟩
    · have hperform : call.perform (image.after calls) = .error e := by
        rw [Call.perform, Statement.outcome_eq_error_iff.mpr herror]
        rfl
      refine ⟨⟨fun _ => hfails, fun _ => ⟨e, hperform⟩⟩, fun _ => ?_⟩
      -- Whatever the call had done before it failed was rolled back.
      rw [Image.after_concat, call.atomic.on_of_error herror]
    · have hperform : call.perform (image.after calls) = .ok image' := by
        rw [Call.perform, Statement.outcome_eq_ok_iff.mpr hok]
        rfl
      simp [hperform, hencodable]
  · intro m now hcall hencodable
    have hrow : (fun name => ((Call.save m now).effect name).getD (row name)) = fun name =>
        match (m.globalValue? name).bind fun value => (encode value).toOption with
        | some data => some ⟨data, m.id, .time now⟩
        | none => row name := by
      funext name
      rw [Call.effect_save hencodable, savedRow?, find?_globalValues]
      cases (m.globalValue? name).bind fun value => (encode value).toOption <;> rfl
    rw [Image.after_concat, ← hrow]
    exact (hafter.call hcall).answers

/-- A function cannot be put. Saving a runtime with a global that holds one leaves the older row
    of that global, and writes the other. -/
theorem older_row_of_function_answers :
    let s := ((((Session.new [0x31] [] true).perform (.globalCell [0x66])).perform
      (.writeCell (some 0) (.function none))).perform (.globalCell [0x67])).perform
        (.writeCell (some 1) (.boolean true))
    let calls : List Call := [.put [0x66] .nil [0x72] 1, .put [0x78] (.function none) [0x72] 2,
      .save s.machine 3]
    ((Image.new []).after calls).Answers (fun name => rowAfter none calls name) ∧
      rowAfter none calls [0x66] = some ⟨(recordOf .nil).toItem.write, [0x72], .time 1⟩ ∧
      rowAfter none calls [0x67]
        = some ⟨(recordOf (.boolean true)).toItem.write, [0x31], .time 3⟩ ∧
      rowAfter none calls [0x78] = none := by
  intro s calls
  have hrun : Run (.new [0x31] [] true) [.globalCell [0x66], .writeCell (some 0) (.function none),
      .globalCell [0x67], .writeCell (some 1) (.boolean true)] s := by
    refine .step ?_ (.step ?_ (.step ?_ (.step ?_ (.done _)))) <;>
      simp [Operation.Allowed, Operation.handles]
  have hcalls : ∀ call ∈ calls, call.IsReached := by
    intro call hcall
    simp only [calls, List.mem_cons, List.not_mem_nil, or_false] at hcall
    rcases hcall with rfl | rfl | rfl
    · exact trivial
    · exact trivial
    · exact ⟨_, _, _, _, s, hrun, rfl⟩
  refine ⟨(image_answers_last_writes (Image.keeps_new []) hcalls).1, ?_, ?_, ?_⟩
  · decide +kernel
  · decide +kernel
  · decide +kernel

end ValueRuntime
