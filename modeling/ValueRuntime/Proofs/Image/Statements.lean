import ValueRuntime.Image.Statement
import ValueRuntime.Proofs.Image.Rows

/-! # What statements leave

    A statement leaves a connection also when it fails. Outside of a transaction, the image is
    changed by a statement that succeeds and by no other. In a transaction, whatever is done stays
    in it: the image is as it was committed, after any number of statements and wherever one of
    them failed. So a transaction that is rolled back has left no trace, and one that is committed
    has done all its work at once.
-/

namespace ValueRuntime

open Codec

namespace Statement

variable {α β : Type} {c c' : Connection} {image work : Image}

/-! ## Sequences -/

theorem run_bind_get (f : Connection → Statement β) : (get >>= f).run c = (f c).run c :=
  run_bind_of_ok rfl f

/-- Whatever happens, the transaction is rolled back in the end. -/
theorem run_finally_rollBack {x : Statement α} {result : Except ImageError α}
    (hx : x.run c = (result, c')) :
    (tryFinally x rollBack).run c = (result, c'.image.connect) := by
  simp only [tryFinally, tryFinally', Functor.map, ExceptT.map, bind, ExceptT.run, ExceptT.mk,
    StateT.bind] at *
  rw [hx]
  cases result <;> rfl

/-! ## Rows -/

/-- Without a transaction, the image gets the rows. -/
theorem run_changeRows (image : Image) (attempt : Attempt)
    (change : NameTable Row → NameTable Row) :
    (changeRows attempt change).run image.connect = match image.rows attempt with
      | .ok rows => (.ok (), (image.withRows (change rows)).connect)
      | .error e => (.error e, image.connect) := by
  unfold changeRows
  rw [run_bind_get]
  dsimp only [Image.connect]
  cases image.rows attempt <;> rfl

/-- In a transaction, the image is left alone. -/
theorem run_changeRows_pending (image work : Image) (attempt : Attempt)
    (change : NameTable Row → NameTable Row) :
    (changeRows attempt change).run ⟨image, some work⟩ = match work.rows attempt with
      | .ok rows => (.ok (), ⟨image, some (work.withRows (change rows))⟩)
      | .error e => (.error e, ⟨image, some work⟩) := by
  unfold changeRows
  rw [run_bind_get]
  dsimp only
  cases work.rows attempt <;> rfl

/-! ## Transactions -/

/-- **A statement stays in a transaction:** it leaves the transaction open, and the image as it was
    committed, whether it fails or not. -/
def Stays (x : Statement α) : Prop :=
  ∀ image work : Image, ∃ result work', x.run ⟨image, some work⟩ = (result, ⟨image, some work'⟩)

theorem stays_pure (a : α) : Stays (pure a) := fun _ work => ⟨.ok a, work, rfl⟩

theorem stays_throw (e : ImageError) : Stays (throw e : Statement α) :=
  fun _ work => ⟨.error e, work, rfl⟩

theorem Stays.bind {x : Statement α} {f : α → Statement β} (hx : Stays x)
    (hf : ∀ a, Stays (f a)) : Stays (x >>= f) := by
  intro image work
  obtain ⟨result, work', hrun⟩ := hx image work
  cases result with
  | error e => exact ⟨.error e, work', run_bind_of_error hrun f⟩
  | ok a =>
    rw [run_bind_of_ok hrun]
    exact hf a image work'

theorem stays_changeRows (attempt : Attempt) (change : NameTable Row → NameTable Row) :
    Stays (changeRows attempt change) := by
  intro image work
  rw [run_changeRows_pending]
  cases work.rows attempt with
  | error e => exact ⟨.error e, work, rfl⟩
  | ok rows => exact ⟨.ok (), _, rfl⟩

/-- Storing values stays in a transaction, however many were stored before one cannot be. -/
theorem stays_putAll (runtime : Bytes) (now : Int) (values : List (Bytes × Datum)) :
    Stays (putAll runtime now values) := by
  induction values with
  | nil => exact stays_pure 0
  | cons entry rest ih =>
    obtain ⟨name, value⟩ := entry
    rw [putAll]
    cases encode value with
    | ok data => exact (stays_changeRows _ _).bind fun _ => ih.bind fun count => stays_pure _
    | error e =>
      cases e with
      | fault cause => exact stays_throw _
      | failure inner =>
        simp only
        split
        · exact ih
        · exact stays_throw _

/-- A transaction begins on an open image. -/
theorem run_start (hopen : image.isOpen = true) :
    start.run image.connect = (.ok (), ⟨image, some image⟩) := by
  have hconnected : image.connect.image.isOpen = true := hopen
  unfold start
  rw [run_bind_get, if_pos hconnected]
  rfl

/-- Work that is done is committed. -/
theorem run_atomically_of_ok (hopen : image.isOpen = true) {x : Statement α} {a : α}
    (hx : x.run ⟨image, some image⟩ = (.ok a, ⟨image, some work⟩)) :
    (atomically x).run image.connect = (.ok a, work.connect) := by
  have hwork : (do let result ← x; commit; pure result : Statement α).run ⟨image, some image⟩
      = (.ok a, work.connect) := by
    rw [run_bind_of_ok hx]
    rfl
  unfold atomically
  rw [run_bind_of_ok (run_start hopen)]
  exact run_finally_rollBack hwork

/-- Work that fails is rolled back. -/
theorem run_atomically_of_error (hopen : image.isOpen = true) {x : Statement α} {e : ImageError}
    (hx : x.run ⟨image, some image⟩ = (.error e, c)) :
    (atomically x).run image.connect = (.error e, c.image.connect) := by
  unfold atomically
  rw [run_bind_of_ok (run_start hopen)]
  exact run_finally_rollBack (run_bind_of_error hx _)

/-! ## All or nothing -/

/-- **An atomic statement:** it leaves no transaction open, and if it fails then the image is as it
    was. -/
def Atomic (x : Statement α) : Prop :=
  ∀ image : Image, ∃ result image', x.run image.connect = (result, image'.connect) ∧
    ∀ e, result = .error e → image' = image

theorem atomic_throw (e : ImageError) : Atomic (throw e : Statement α) :=
  fun image => ⟨.error e, image, rfl, fun _ _ => rfl⟩

theorem atomic_changeRows (attempt : Attempt) (change : NameTable Row → NameTable Row) :
    Atomic (changeRows attempt change) := by
  intro image
  rw [run_changeRows]
  cases image.rows attempt with
  | error e => exact ⟨.error e, image, rfl, fun _ _ => rfl⟩
  | ok rows => exact ⟨.ok (), _, rfl, fun e he => by cases he⟩

theorem atomic_put (name : Bytes) (value : Datum) (runtime : Bytes) (now : Int) :
    Atomic (put name value runtime now) := by
  unfold put
  cases encode value with
  | ok data => exact atomic_changeRows _ _
  | error e =>
    cases e with
    | fault cause => exact atomic_throw _
    | failure inner => exact atomic_throw _

/-- **A transaction makes work atomic** that stays in it. -/
theorem Stays.atomic {x : Statement α} (hx : Stays x) : Atomic (atomically x) := by
  intro image
  cases hopen : image.isOpen with
  | false =>
    refine ⟨.error (.closed .beginningSave), image, ?_, fun _ _ => rfl⟩
    have hclosed : ¬image.connect.image.isOpen = true := Bool.eq_false_iff.mp hopen
    refine run_bind_of_error ?_ _
    unfold start
    rw [run_bind_get, if_neg hclosed]
    rfl
  | true =>
    -- The transaction begins with the rows of the image, and the work in it leaves those alone.
    obtain ⟨result, work, hrun⟩ := hx image image
    cases result with
    | ok a => exact ⟨.ok a, work, run_atomically_of_ok hopen hrun, fun e he => by cases he⟩
    | error e => exact ⟨.error e, image, run_atomically_of_error hopen hrun, fun _ _ => rfl⟩

/-- **Saving is atomic,** wherever it fails. -/
theorem atomic_save (values : List (Bytes × Datum)) (runtime : Bytes) (now : Int) :
    Atomic (save values runtime now) :=
  (stays_putAll runtime now values).atomic

theorem Atomic.map {x : Statement α} (hx : Atomic x) (f : α → β) :
    Atomic (do return f (← x)) := by
  intro image
  obtain ⟨result, image', hrun, hkept⟩ := hx image
  cases result with
  | ok a => exact ⟨.ok (f a), image', run_bind_of_ok hrun _, fun e he => by cases he⟩
  | error e => exact ⟨.error e, image', run_bind_of_error hrun _, fun _ _ => hkept e rfl⟩

section Images

variable {x : Statement α}

/-- An atomic statement leaves its image without a transaction. -/
theorem Atomic.run_eq (hx : Atomic x) (image : Image) :
    x.run image.connect = ((x.on image).1, (x.on image).2.connect) := by
  obtain ⟨result, image', hrun, -⟩ := hx image
  unfold on
  rw [hrun]
  rfl

theorem Atomic.on_of_error (hx : Atomic x) {e : ImageError} (herror : (x.on image).1 = .error e) :
    (x.on image).2 = image := by
  obtain ⟨result, image', hrun, hkept⟩ := hx image
  unfold on at herror ⊢
  rw [hrun] at herror ⊢
  exact hkept e herror

theorem on_of_run {result : Except ImageError α} {image' : Image}
    (hx : x.run image.connect = (result, image'.connect)) : x.on image = (result, image') := by
  unfold on
  rw [hx]
  rfl

theorem on_map (x : Statement α) (f : α → β) (image : Image) :
    (do return f (← x) : Statement β).on image = ((x.on image).1.map f, (x.on image).2) := by
  unfold on
  cases hrun : x.run image.connect with
  | mk result c =>
    cases result with
    | ok a => rw [run_bind_of_ok hrun]; rfl
    | error e => rw [run_bind_of_error hrun]; rfl

/-- A statement that succeeds has for its outcome what it gives and leaves. -/
theorem outcome_eq_ok_iff {a : α} {image' : Image} :
    x.outcome image = .ok (a, image') ↔ x.on image = (.ok a, image') := by
  unfold outcome
  obtain ⟨result, left⟩ := x.on image
  cases result <;> simp [Except.map]

/-- A statement that fails has its error for its outcome. -/
theorem outcome_eq_error_iff {e : ImageError} :
    x.outcome image = .error e ↔ (x.on image).1 = .error e := by
  unfold outcome
  obtain ⟨result, left⟩ := x.on image
  cases result <;> simp [Except.map]

end Images

theorem on_changeRows (image : Image) (attempt : Attempt)
    (change : NameTable Row → NameTable Row) :
    (changeRows attempt change).on image = match image.rows attempt with
      | .ok rows => (.ok (), image.withRows (change rows))
      | .error e => (.error e, image) := by
  unfold on
  rw [run_changeRows]
  cases image.rows attempt <;> rfl

end Statement

/-- **A value is put** if it can be encoded and there are rows, and then it has a row. -/
theorem Image.put_eq_ok_iff {image image' : Image} {name runtime : Bytes} {value : Datum}
    {now : Int} :
    image.put name value runtime now = .ok image' ↔
      ∃ data rows, encode value = .ok data ∧ image.rows (.saving name) = .ok rows ∧
        image.withRows (rows.insert name ⟨data, runtime, .time now⟩) = image' := by
  unfold Image.put Statement.put
  cases encode value with
  | error e =>
    constructor
    · cases e <;> exact fun hok => by cases hok
    · rintro ⟨data, rows, hdata, -⟩
      cases hdata
  | ok data =>
    simp only [Statement.outcome, Statement.insert, Statement.on_changeRows]
    cases image.rows (.saving name) <;> simp [Except.map]

end ValueRuntime
