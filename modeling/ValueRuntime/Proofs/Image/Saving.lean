import ValueRuntime.Proofs.Codec.Offences
import ValueRuntime.Proofs.Image.Transfer

/-! # Which runtimes can be saved

    Saving passes over a global when its encoding stops at a function. A global that holds a
    function may also nest too deep, and then it depends on which of the two the encoder meets
    first: a global with a function in it can fail the whole save.
-/

namespace ValueRuntime

open Codec

/-! ## Values -/

/-- **A value can be saved or is passed over** unless the first part of it that offends is
    nested too deep. -/
theorem Datum.isSavable_iff {d : Datum} (hb : d.isBalanced = true) (hw : d.isWhole = true) :
    d.isSavable = true ↔ ∀ visit, ¬FirstOffence d visit .tooDeep := by
  unfold Datum.isSavable
  constructor
  · intro hsavable visit hfirst
    rw [(encode_eq_error_iff hb hw _).mpr ⟨visit, .tooDeep, hfirst, rfl⟩] at hsavable
    cases hsavable
  · intro hnone
    cases hencode : encode d with
    | ok bytes => rfl
    | error e =>
      obtain ⟨visit, cause, hfirst, rfl⟩ := (encode_eq_error_iff hb hw e).mp hencode
      have hcause : cause ≠ .tooDeep := fun hdeep => hnone visit (by rw [← hdeep]; exact hfirst)
      obtain ⟨_, _, -, hoffends, -⟩ := hfirst
      cases hoffends with
      | function _ => rfl
      | tooDeep _ _ => exact absurd rfl hcause

/-- What is saved has no functions, and what is passed over has one. -/
theorem Datum.encode_of_isSavable {d : Datum} (hb : d.isBalanced = true)
    (hsavable : d.isSavable = true) :
    (∃ bytes, encode d = .ok bytes ∧ d.isFunctionFree = true) ∨
      ∃ e, encode d = .error e ∧ d.isFunctionFree = false := by
  have hfree := isOk_encode_eq (isCovered_of_isBalanced hb) hsavable fun _ => hb
  cases hencode : encode d with
  | ok bytes =>
    rw [hencode] at hfree
    exact .inl ⟨bytes, rfl, hfree.symm⟩
  | error e =>
    rw [hencode] at hfree
    exact .inr ⟨e, rfl, hfree.symm⟩

/-! ## Runtimes -/

/-- The objects in all globals have contents, and a value for each key. -/
def Machine.IsComplete (m : Machine) : Prop :=
  ∀ name d, m.globalValue? name = some d → d.isBalanced = true ∧ d.isWhole = true

section

variable {m : Machine} {image : Image} {rows : NameTable Row} {now : Int}

/-- **A save that fails** does so for a global whose first offence is that it nests too deep. -/
theorem Image.saveGlobals_error (ho : m.globals.Ordered) (hm : m.IsComplete)
    (hopen : image.isOpen = true) (hrows : image.rows? = some rows) {e : ImageError}
    (herror : image.saveGlobals m now = .error e) :
    ∃ name d visit, m.globalValue? name = some d ∧ FirstOffence d visit .tooDeep ∧
      e = .encoding name ⟨visit.path, .tooDeep⟩ := by
  obtain ⟨⟨name, d⟩, hentry, hfails, hinner⟩ := stopsSave_of_saveGlobals ho hopen hrows herror
  have hd : m.globalValue? name = some d := by
    rw [← find?_globalValues]
    exact (ordered_globalValues ho).mem_iff.mp hentry
  obtain ⟨hb, hw⟩ := hm name d hd
  -- The value cannot be saved, so there is a part that nests too deep.
  obtain ⟨visit, hfirst⟩ : ∃ visit, FirstOffence d visit .tooDeep := by
    by_contra hnone
    have hsavable := (Datum.isSavable_iff hb hw).mpr fun visit hfirst => hnone ⟨visit, hfirst⟩
    rw [hsavable] at hfails
    cases hfails
  refine ⟨name, d, visit, hd, hfirst, hinner _ ?_⟩
  exact (encode_eq_error_iff hb hw _).mpr ⟨visit, .tooDeep, hfirst, rfl⟩

/-- **A save that succeeds** leaves for each name the row of its global, and where there is none
    the row it had. -/
theorem Image.saveGlobals_ok (ho : m.globals.Ordered) (hopen : image.isOpen = true)
    (hrows : image.rows? = some rows) {count : Nat} {image' : Image}
    (hsave : image.saveGlobals m now = .ok (count, image')) :
    (∀ name d, m.globalValue? name = some d → d.isSavable = true) ∧
      ∃ rows', image' = image.withRows rows' ∧
        ∀ name, rows'.find? name
          = (((m.globalValue? name).bind fun d => (encode d).toOption).map fun data =>
              (⟨data, m.id, .time now⟩ : Row)).or (rows.find? name) := by
  obtain ⟨-, rows', himage, hsaved⟩ := savedRows_of_saveGlobals ho hopen hrows hsave
  refine ⟨?_, rows', himage, ?_⟩
  · intro name d hd
    rw [← find?_globalValues] at hd
    exact List.all_eq_true.mp hsaved.savable _ (NameTable.mem_of_find? hd)
  · intro name
    rw [hsaved.find?, savedRow?, find?_globalValues]

end

/-! ## Nested functions -/

/-- A value that is stored in a global of a runtime is the value of that global, and no other
    global changes. -/
theorem Session.IsReached.setGlobal {s : Session} (hs : s.IsReached) (name : Bytes)
    (contents : Contents) (hbuild : (Operation.build contents).Allowed s)
    (hwhole : (contents.datum s.heap).isWhole = true) :
    ∃ s' : Session, s'.IsReached ∧
      s'.machine.globalValue? name = some (contents.datum s.heap) ∧
      ∀ other, other ≠ name → s'.machine.globalValue? other = s.machine.globalValue? other := by
  obtain ⟨id, own, writable, ops, hrun⟩ := hs
  have hsound : s.Sound := hrun.sound (Session.sound_new id own writable)
  have hglobals : s.machine.GlobalsSound :=
    hrun.globalsSound (Session.globalsSound_new id own writable)
  have hassigned := Machine.assigned_setGlobal hsound.heap hglobals name hwhole
  obtain ⟨more, hmore, -⟩ := run_setGlobal hsound name hbuild
  refine ⟨_, ⟨id, own, writable, _, hrun.append hmore⟩, ?_, ?_⟩
  · obtain ⟨cell, v, hcell, hv, hview⟩ := hassigned.stored name _ List.mem_cons_self
    unfold Machine.globalValue?
    rw [hcell, Option.map_some, hv, Option.getD_some, hview]
  · intro other hne
    refine (hassigned.unassigned hsound hglobals ?_).2
    intro d hd
    exact hne (congrArg Prod.fst (List.mem_singleton.mp hd))

/-- A function in a number of lists. -/
def nestedFunction (count : Nat) : Datum :=
  Nat.repeat (fun d => .list 1 [d]) count (.function none)

theorem isFunctionFree_nestedFunction (count : Nat) :
    (nestedFunction count).isFunctionFree = false := by
  rw [Bool.eq_false_iff]
  induction count with
  | zero => exact Bool.false_ne_true
  | succ count ih =>
    intro hfree
    obtain ⟨-, hitems⟩ := (Datum.every_list_iff _ 1 [nestedFunction count]).mp hfree
    exact ih (hitems _ List.mem_cons_self)

/-- The encoder comes to the function if there are not too many lists around it. -/
theorem failureAmong?_nestedFunction {depth : Nat} (hdepth : depth ≤ maxDepth) (count : Nat) :
    failureAmong? depth (visits (nestedFunction count)) = some
      (if depth + count ≤ maxDepth then ⟨List.replicate count (.listElement 0), .function⟩
        else ⟨List.replicate (maxDepth - depth) (.listElement 0), .tooDeep⟩) := by
  induction count generalizing depth with
  | zero =>
    rw [Nat.add_zero, if_pos hdepth]
    rfl
  | succ count ih =>
    rw [show nestedFunction (count + 1) = .list 1 [nestedFunction count] from rfl, visits,
      failureAmong?_container rfl, visitsOf, visitsOf, visitItems, visitItems, List.append_nil,
      failureAmong?_within]
    by_cases hdeep : maxDepth ≤ depth
    · -- This list is the one inside too many.
      obtain rfl : depth = maxDepth := Nat.le_antisymm hdepth hdeep
      rw [if_pos hdeep, if_neg (by omega), Nat.sub_self]
      rfl
    · have hrest : maxDepth - depth = maxDepth - (depth + 1) + 1 := by omega
      rw [if_neg hdeep, ih (by omega), Nat.add_right_comm, ← Nat.add_assoc, hrest]
      split <;> rfl

/-- In more lists than there may be, the function is not what the encoder stops at. -/
theorem tooDeep_nestedFunction_iff (count : Nat) :
    (∃ visit, FirstOffence (nestedFunction count) visit .tooDeep) ↔ maxDepth < count := by
  have hfailure := failureAmong?_nestedFunction (Nat.zero_le maxDepth) count
  rw [Nat.zero_add] at hfailure
  constructor
  · rintro ⟨visit, hfirst⟩
    rw [(failureAmong?_eq_some_iff _ _).mpr ⟨visit, .tooDeep, hfirst, rfl⟩] at hfailure
    by_contra hle
    rw [if_pos (Nat.not_lt.mp hle)] at hfailure
    cases congrArg Failure.cause (Option.some.inj hfailure)
  · intro hlt
    rw [if_neg (Nat.not_le.mpr hlt)] at hfailure
    obtain ⟨visit, cause, hfirst, hplace⟩ := (failureAmong?_eq_some_iff _ _).mp hfailure
    obtain rfl : .tooDeep = cause := congrArg Failure.cause hplace
    exact ⟨visit, hfirst⟩

/-- A runtime with a boolean in the global `a` and a function in a number of lists in `g`. -/
def Machine.HoldsNested (m : Machine) (count : Nat) : Prop :=
  ∀ name, m.globalValue? name
    = if name = [0x67] then some (nestedFunction count)
      else if name = [0x61] then some (.boolean true) else none

theorem exists_holdsNested (count : Nat) :
    ∃ s : Session, s.IsReached ∧ s.machine.HoldsNested count := by
  have hnew : (Session.new [0x31] [] true).IsReached := ⟨[0x31], [], true, [], .done _⟩
  obtain ⟨s, hs, ha, hothers⟩ := hnew.setGlobal [0x61] (.value (.boolean true))
    (fun v hv => by rw [List.mem_singleton.mp hv]; exact Heap.valid_boolean _) rfl
  have hdatum : (Contents.wrapped .item count (.function none)).datum s.heap
      = nestedFunction count := by
    simp only [Contents.datum, Heap.view, Heap.viewWithin]
    rfl
  obtain ⟨s', hs', hg, hothers'⟩ := hs.setGlobal [0x67] (.wrapped .item count (.function none))
    (fun v hv => by rw [List.mem_singleton.mp hv]; exact Heap.valid_function _)
    (by rw [hdatum]; exact Datum.every_repeat_list (fun _ => rfl) rfl count)
  refine ⟨s', hs', fun name => ?_⟩
  by_cases hname : name = [0x67]
  · rw [if_pos hname, hname, hg, hdatum]
  · rw [if_neg hname, hothers' name hname]
    by_cases hname' : name = [0x61]
    · rw [if_pos hname', hname']
      exact ha
    · rw [if_neg hname', hothers name hname']
      rfl

namespace Machine.HoldsNested

variable {m : Machine} {count : Nat} (hm : m.HoldsNested count)
include hm

theorem cases {name : Bytes} {d : Datum} (hd : m.globalValue? name = some d) :
    name = [0x67] ∧ d = nestedFunction count ∨ name = [0x61] ∧ d = .boolean true := by
  rw [hm] at hd
  split at hd
  · next hname => exact .inl ⟨hname, (Option.some.inj hd).symm⟩
  · split at hd
    · next hname => exact .inr ⟨hname, (Option.some.inj hd).symm⟩
    · cases hd

theorem isComplete : m.IsComplete := by
  intro name d hd
  rcases hm.cases hd with ⟨-, rfl⟩ | ⟨-, rfl⟩
  · exact ⟨Datum.every_repeat_list (fun _ => rfl) rfl count,
      Datum.every_repeat_list (fun _ => rfl) rfl count⟩
  · exact ⟨rfl, rfl⟩

theorem of_tooDeep {name : Bytes} {d : Datum} {visit : Visit}
    (hd : m.globalValue? name = some d) (hfirst : FirstOffence d visit .tooDeep) :
    name = [0x67] ∧ maxDepth < count := by
  rcases hm.cases hd with ⟨hname, rfl⟩ | ⟨-, rfl⟩
  · exact ⟨hname, (tooDeep_nestedFunction_iff count).mp ⟨visit, hfirst⟩⟩
  · have hfailure := (failureAmong?_eq_some_iff _ _).mpr ⟨visit, .tooDeep, hfirst, rfl⟩
    cases hfailure

end Machine.HoldsNested

/-! ## Saving -/

/-- **Which runtimes can be saved.** The globals of a runtime are saved to an open image unless
    there is one whose first offence is that it nests too deep, whether or not there are
    functions in it.

    * A save that succeeds counts the globals without functions and writes a row for each of
      them. All other names keep what they had.
    * A save that fails names such a global, and says where it nests too deep. -/
theorem save_fails_iff_too_deep_first {s : Session} (hs : s.IsReached)
    (hm : s.machine.IsComplete) {image : Image} (hopen : image.isOpen = true)
    {rows : NameTable Row} (hrows : image.rows? = some rows) (now : Int) :
    ((∃ result, image.saveGlobals s.machine now = .ok result) ↔
        ∀ name d visit, s.machine.globalValue? name = some d → ¬FirstOffence d visit .tooDeep) ∧
      (∀ count image', image.saveGlobals s.machine now = .ok (count, image') →
        (count = s.machine.globalValues.countP fun entry => entry.2.isFunctionFree) ∧
          ∃ rows', image' = image.withRows rows' ∧
            (∀ name d, s.machine.globalValue? name = some d → d.isFunctionFree = true →
              ∃ bytes, encode d = .ok bytes ∧
                rows'.find? name = some ⟨bytes, s.machine.id, .time now⟩) ∧
            ∀ name, (∀ d, s.machine.globalValue? name = some d → d.isFunctionFree = false) →
              rows'.find? name = rows.find? name) ∧
      ∀ e, image.saveGlobals s.machine now = .error e →
        ∃ name d visit, s.machine.globalValue? name = some d ∧ FirstOffence d visit .tooDeep ∧
          e = .encoding name ⟨visit.path, .tooDeep⟩ := by
  obtain ⟨id, name, writable, ops, hrun⟩ := hs
  have hordered : s.machine.globals.Ordered :=
    (hrun.globalsSound (Session.globalsSound_new id name writable)).ordered
  refine ⟨?_, ?_, fun e => Image.saveGlobals_error hordered hm hopen hrows⟩
  · constructor
    · rintro ⟨⟨count, image'⟩, hsave⟩ name d visit hd
      obtain ⟨hsavable, -⟩ := Image.saveGlobals_ok hordered hopen hrows hsave
      exact (Datum.isSavable_iff (hm name d hd).1 (hm name d hd).2).mp (hsavable name d hd) visit
    · intro hnone
      cases hsave : image.saveGlobals s.machine now with
      | ok result => exact ⟨result, rfl⟩
      | error e =>
        obtain ⟨name, d, visit, hd, hfirst, -⟩ :=
          Image.saveGlobals_error hordered hm hopen hrows hsave
        exact absurd hfirst (hnone name d visit hd)
  · intro count image' hsave
    obtain ⟨hsavable, rows', himage, hfind⟩ := Image.saveGlobals_ok hordered hopen hrows hsave
    have hencode := fun name d hd =>
      Datum.encode_of_isSavable (hm name d hd).1 (hsavable name d hd)
    refine ⟨?_, rows', himage, ?_, ?_⟩
    · rw [(Image.savedRows_of_saveGlobals hordered hopen hrows hsave).1]
      apply List.countP_congr
      rintro ⟨name, d⟩ hmem
      rcases hencode name d ((mem_globalValues_iff hordered).mp hmem) with
        ⟨bytes, hbytes, hfree⟩ | ⟨e, herror, hfree⟩
      · simp [hbytes, hfree, Except.isOk, Except.toBool]
      · simp [herror, hfree, Except.isOk, Except.toBool]
    · intro name d hd hfree
      rcases hencode name d hd with ⟨bytes, hbytes, -⟩ | ⟨e, -, hfunction⟩
      · refine ⟨bytes, hbytes, ?_⟩
        rw [hfind, hd, Option.bind_some, hbytes]
        rfl
      · rw [hfree] at hfunction
        cases hfunction
    · intro name hown
      rw [hfind]
      cases hd : s.machine.globalValue? name with
      | none => rfl
      | some d =>
        rcases hencode name d hd with ⟨bytes, -, hfree⟩ | ⟨e, herror, -⟩
        · rw [hown d hd] at hfree
          cases hfree
        · rw [Option.bind_some, herror]
          rfl

/-- A function in as many lists as there may be is passed over, and the other global is
    saved. -/
theorem function_in_deepest_list_passed_over :
    ∃ s : Session, s.IsReached ∧ s.machine.HoldsNested 255 ∧
      ∃ count rows bytes,
        (Image.new []).saveGlobals s.machine 0 = .ok (count, (Image.new []).withRows rows) ∧
          encode (.boolean true) = .ok bytes ∧
          rows.find? [0x61] = some ⟨bytes, s.machine.id, .time 0⟩ ∧
          rows.find? [0x67] = none := by
  obtain ⟨s, hs, hm⟩ := exists_holdsNested 255
  obtain ⟨hiff, hsaved, -⟩ := save_fails_iff_too_deep_first hs hm.isComplete
    (rfl : (Image.new []).isOpen = true) rfl 0
  obtain ⟨⟨count, image'⟩, hsave⟩ := hiff.mpr fun name d visit hd hfirst =>
    absurd (hm.of_tooDeep hd hfirst).2 (by decide)
  obtain ⟨-, rows, rfl, hrow, hothers⟩ := hsaved count image' hsave
  obtain ⟨bytes, hbytes, ha⟩ := hrow [0x61] (.boolean true) (hm [0x61]) rfl
  refine ⟨s, hs, hm, count, rows, bytes, hsave, hbytes, ha, ?_⟩
  refine hothers [0x67] fun d hd => ?_
  obtain rfl : nestedFunction 255 = d := Option.some.inj ((hm [0x67]).symm.trans hd)
  exact isFunctionFree_nestedFunction 255

/-- A function in one list more fails the save, although each global without functions nests
    little enough. -/
theorem function_in_deep_list_fails_save :
    ∃ s : Session, s.IsReached ∧ s.machine.HoldsNested 256 ∧
      (∀ name d, s.machine.globalValue? name = some d → d.isFunctionFree = true →
        d.depth ≤ maxDepth) ∧
      ∃ path, (Image.new []).saveGlobals s.machine 0
        = .error (.encoding [0x67] ⟨path, .tooDeep⟩) := by
  obtain ⟨s, hs, hm⟩ := exists_holdsNested 256
  obtain ⟨id, name, writable, ops, hrun⟩ := hs
  have hordered : s.machine.globals.Ordered :=
    (hrun.globalsSound (Session.globalsSound_new id name writable)).ordered
  refine ⟨s, ⟨id, name, writable, ops, hrun⟩, hm, ?_, ?_⟩
  · intro name d hd hfree
    rcases hm.cases hd with ⟨-, rfl⟩ | ⟨-, rfl⟩
    · rw [isFunctionFree_nestedFunction] at hfree
      cases hfree
    · exact Nat.zero_le _
  · cases hsave : (Image.new []).saveGlobals s.machine 0 with
    | error e =>
      obtain ⟨name, d, visit, hd, hfirst, rfl⟩ :=
        Image.saveGlobals_error hordered hm.isComplete rfl rfl hsave
      obtain ⟨rfl, -⟩ := hm.of_tooDeep hd hfirst
      exact ⟨visit.path, rfl⟩
    | ok result =>
      obtain ⟨visit, hfirst⟩ := (tooDeep_nestedFunction_iff 256).mpr (by decide)
      obtain ⟨hsavable, -⟩ := Image.saveGlobals_ok hordered rfl rfl hsave
      obtain ⟨hb, hw⟩ := hm.isComplete _ _ (hm [0x67])
      exact absurd hfirst ((Datum.isSavable_iff hb hw).mp (hsavable _ _ (hm [0x67])) visit)

end ValueRuntime
