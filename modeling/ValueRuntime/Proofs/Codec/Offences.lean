import ValueRuntime.Proofs.Codec.Data

/-! # What cannot be encoded

    The encoder enters a datum from left to right, each container before what is in it and
    each key before its value. Here this order is a list: the *visits* of a datum are its
    parts, each with the steps that lead to it. A part offends when it is a function, or a
    list or an object inside too many others. Encoding fails at the first part that offends,
    and with nothing else.
-/

namespace ValueRuntime

namespace Codec

/-! ## Visits -/

/-- **A visit:** a part of a datum, and the steps that lead to it. There is one step for each
    list and object around the part. -/
structure Visit where
  path : List Step
  part : Datum

/-- The visit seen from one container further out. -/
def Visit.within (step : Step) (visit : Visit) : Visit :=
  { visit with path := step :: visit.path }

/-- The visits of the items of a list, given those of each item. -/
def visitItems : (index : Nat) → (items : List (List Visit)) → List Visit
  | _, [] => []
  | index, item :: rest => item.map (.within (.listElement index)) ++ visitItems (index + 1) rest

/-- The visits of the keys and values of an object in turn, given those of each key and of each
    value. -/
def visitPairs : (shown : List Bytes) → (keys values : List (List Visit)) → List Visit
  | name :: shown, key :: keys, value :: values =>
    key.map (.within (.objectKey name)) ++ value.map (.within (.objectMember name))
      ++ visitPairs shown keys values
  | _, _, _ => []

mutual

/-- **The visits of a datum** in order. -/
def visits : Datum → List Visit
  | .list capacity items => ⟨[], .list capacity items⟩ :: visitItems 0 (visitsOf items)
  | .object capacity keys values =>
    ⟨[], .object capacity keys values⟩
      :: visitPairs (keys.map fun key => keyText key.text) (visitsOf keys) (visitsOf values)
  | d => [⟨[], d⟩]

/-- The visits of several data, each by itself. -/
def visitsOf : List Datum → List (List Visit)
  | [] => []
  | d :: rest => visits d :: visitsOf rest

end

/-! ## Offences -/

/-- **The parts that offend**, and why. -/
inductive Visit.Offends (visit : Visit) : Cause → Prop where
  | function (hpart : visit.part.kind = .function) : visit.Offends .function
  | tooDeep (hpart : visit.part.isContainer = true) (hpath : maxDepth ≤ visit.path.length) :
      visit.Offends .tooDeep

/-- **The first part of a datum that offends.** -/
def FirstOffence (d : Datum) (visit : Visit) (cause : Cause) : Prop :=
  ∃ before after, visits d = before ++ visit :: after ∧ visit.Offends cause ∧
    ∀ earlier ∈ before, ∀ cause, ¬earlier.Offends cause

/-- The failure at a part of a datum that is itself inside `depth` containers. -/
def Visit.failure? (depth : Nat) (visit : Visit) : Option Failure :=
  if visit.part.kind = .function then some ⟨visit.path, .function⟩
  else if visit.part.isContainer = true ∧ maxDepth ≤ depth + visit.path.length then
    some ⟨visit.path, .tooDeep⟩
  else none

/-- The first failure among some visits. -/
def failureAmong? (depth : Nat) (visits : List Visit) : Option Failure :=
  visits.findSome? (Visit.failure? depth)

theorem kind_ne_function_of_isContainer {d : Datum} (hd : d.isContainer = true) :
    d.kind ≠ .function := by
  cases d with
  | function callable => cases hd
  | _ => exact fun hkind => by cases hkind

theorem Visit.failure?_eq_some_iff (visit : Visit) (failure : Failure) :
    visit.failure? 0 = some failure ↔
      ∃ cause, visit.Offends cause ∧ failure = ⟨visit.path, cause⟩ := by
  rw [Visit.failure?, Nat.zero_add]
  constructor
  · intro hfailure
    split at hfailure
    · next hpart =>
      cases hfailure
      exact ⟨_, .function hpart, rfl⟩
    · split at hfailure
      · next hdeep =>
        cases hfailure
        exact ⟨_, .tooDeep hdeep.1 hdeep.2, rfl⟩
      · cases hfailure
  · rintro ⟨cause, hoffends, rfl⟩
    cases hoffends with
    | function hpart => rw [if_pos hpart]
    | tooDeep hpart hpath =>
      rw [if_neg (kind_ne_function_of_isContainer hpart), if_pos ⟨hpart, hpath⟩]

theorem Visit.failure?_eq_none_iff (visit : Visit) :
    visit.failure? 0 = none ↔ ∀ cause, ¬visit.Offends cause := by
  rw [Option.eq_none_iff_forall_ne_some]
  constructor
  · intro hnone cause hoffends
    exact hnone _ ((visit.failure?_eq_some_iff _).mpr ⟨cause, hoffends, rfl⟩)
  · intro hnone failure hfailure
    obtain ⟨cause, hoffends, -⟩ := (visit.failure?_eq_some_iff _).mp hfailure
    exact hnone cause hoffends

/-- **The first failure** is at the first part that offends. -/
theorem failureAmong?_eq_some_iff (d : Datum) (failure : Failure) :
    failureAmong? 0 (visits d) = some failure ↔
      ∃ visit cause, FirstOffence d visit cause ∧ failure = ⟨visit.path, cause⟩ := by
  rw [failureAmong?, List.findSome?_eq_some_iff]
  constructor
  · rintro ⟨before, visit, after, hvisits, hfailure, hbefore⟩
    obtain ⟨cause, hoffends, hplace⟩ := (visit.failure?_eq_some_iff failure).mp hfailure
    exact ⟨visit, cause, ⟨before, after, hvisits, hoffends, fun earlier hearlier =>
      earlier.failure?_eq_none_iff.mp (hbefore earlier hearlier)⟩, hplace⟩
  · rintro ⟨visit, cause, ⟨before, after, hvisits, hoffends, hbefore⟩, hplace⟩
    exact ⟨before, visit, after, hvisits,
      (visit.failure?_eq_some_iff failure).mpr ⟨cause, hoffends, hplace⟩, fun earlier hearlier =>
        earlier.failure?_eq_none_iff.mpr (hbefore earlier hearlier)⟩

/-! ## The encoder as a search -/

/-- A result, unless a failure was found. -/
def stopAt {α : Type} (failure? : Option Failure) (result : α) : Except EncodeError α :=
  match failure? with
  | some failure => .error (.failure failure)
  | none => .ok result

theorem failureAmong?_append (depth : Nat) (visits more : List Visit) :
    failureAmong? depth (visits ++ more)
      = (failureAmong? depth visits).or (failureAmong? depth more) :=
  List.findSome?_append

theorem Visit.failure?_within (depth : Nat) (step : Step) (visit : Visit) :
    (visit.within step).failure? depth = (visit.failure? (depth + 1)).map (.within step) := by
  have hlevels : depth + (step :: visit.path).length = depth + 1 + visit.path.length := by
    rw [List.length_cons]
    omega
  simp only [Visit.failure?, Visit.within, hlevels]
  split
  · rfl
  · split <;> rfl

/-- A failure further in is met at the same place and has a longer way. -/
theorem failureAmong?_within (depth : Nat) (step : Step) (visits : List Visit) :
    failureAmong? depth (visits.map (.within step))
      = (failureAmong? (depth + 1) visits).map (.within step) := by
  rw [failureAmong?, failureAmong?, List.findSome?_map, List.map_findSome?]
  congr 1
  funext visit
  exact visit.failure?_within depth step

/-- A list or an object inside too many others fails before anything in it. -/
theorem failureAmong?_container {d : Datum} (hd : d.isContainer = true) (depth : Nat)
    (more : List Visit) :
    failureAmong? depth (⟨[], d⟩ :: more)
      = if maxDepth ≤ depth then some (.here .tooDeep) else failureAmong? depth more := by
  have hkind := kind_ne_function_of_isContainer hd
  rw [failureAmong?, List.findSome?_cons]
  by_cases hdeep : maxDepth ≤ depth
  · simp [Visit.failure?, hkind, hd, hdeep, Failure.here]
  · simp [Visit.failure?, hkind, hdeep, failureAmong?]

theorem collectItems_eq_stopAt {depth : Nat} {ds : List Datum}
    (hds : ∀ d ∈ ds, Record.ofDatum (depth + 1) d
      = stopAt (failureAmong? (depth + 1) (visits d)) (recordOf d)) (index : Nat) :
    collectItems index (ofData (depth + 1) ds)
      = stopAt (failureAmong? depth (visitItems index (visitsOf ds))) (recordsOf ds) := by
  induction ds generalizing index with
  | nil => rfl
  | cons d rest ih =>
    rw [ofData, collectItems, visitsOf, visitItems, recordsOf, failureAmong?_append,
      failureAmong?_within, hds d List.mem_cons_self,
      ih (fun d hd => hds d (List.mem_cons_of_mem _ hd))]
    -- A failure in the first item ends the loop. Otherwise the rest decides.
    cases failureAmong? (depth + 1) (visits d) with
    | some failure => rfl
    | none => cases failureAmong? depth (visitItems (index + 1) (visitsOf rest)) <;> rfl

theorem collectPairs_eq_stopAt {depth index : Nat} {keys values : List Datum}
    (hlength : index + keys.length = values.length)
    (hkeys : ∀ d ∈ keys, Record.ofDatum (depth + 1) d
      = stopAt (failureAmong? (depth + 1) (visits d)) (recordOf d))
    (hvalues : ∀ d ∈ values, Record.ofDatum (depth + 1) d
      = stopAt (failureAmong? (depth + 1) (visits d)) (recordOf d)) :
    collectPairs (ofData (depth + 1) values) index
        ((keys.map fun key => keyText key.text).zip (ofData (depth + 1) keys))
      = stopAt (failureAmong? depth (visitPairs (keys.map fun key => keyText key.text)
          (visitsOf keys) (visitsOf (values.drop index))))
        (recordsOf keys, recordsOf (values.drop index)) := by
  -- Keys are taken one by one while values are looked up by index, so the values still to
  -- come are those from `index` on.
  induction keys generalizing index with
  | nil =>
    have hdrop : values.drop index = [] := List.drop_eq_nil_of_le (by simp at hlength; omega)
    rw [hdrop]
    rfl
  | cons key rest ih =>
    rw [List.length_cons] at hlength
    have hlt : index < values.length := by omega
    have hvalue : (ofData (depth + 1) values)[index]?
        = some (Record.ofDatum (depth + 1) values[index]) := by
      rw [ofData_eq_map, List.getElem?_map, List.getElem?_eq_getElem hlt]
      rfl
    rw [ofData, List.map_cons, List.zip_cons_cons, collectPairs, hvalue,
      List.drop_eq_getElem_cons hlt, visitsOf, visitsOf, visitPairs, recordsOf, recordsOf,
      failureAmong?_append, failureAmong?_append, failureAmong?_within, failureAmong?_within,
      ih (by omega) (fun d hd => hkeys d (List.mem_cons_of_mem _ hd)),
      hkeys key List.mem_cons_self, hvalues _ (List.getElem_mem hlt)]
    cases failureAmong? (depth + 1) (visits key) with
    | some failure => rfl
    | none =>
      cases failureAmong? (depth + 1) (visits values[index]) with
      | some failure => rfl
      | none => cases failureAmong? depth (visitPairs _ _ _) <;> rfl

/-- **Encoding is a search** for the first failure among the visits of a datum. -/
theorem ofDatum_eq_stopAt {d : Datum} (hb : d.isBalanced = true) (hw : d.isWhole = true)
    (depth : Nat) :
    Record.ofDatum depth d = stopAt (failureAmong? depth (visits d)) (recordOf d) := by
  induction d using Datum.treeInduction generalizing depth with
  | list capacity items ih =>
    rw [Datum.isBalanced_list_iff] at hb
    obtain ⟨-, hitems⟩ := (Datum.every_list_iff _ _ _).mp hw
    -- The list itself comes first, and then its items one container further in.
    have hcollect := collectItems_eq_stopAt
      (fun d hd => ih d hd (hb d hd) (hitems d hd) (depth + 1)) 0
    rw [Record.ofDatum, visits, failureAmong?_container rfl, hcollect]
    split
    · rfl
    · cases failureAmong? depth (visitItems 0 (visitsOf items)) <;> rfl
  | object capacity keys values ihk ihv =>
    obtain ⟨hsizes, hbk, hbv⟩ := (Datum.isBalanced_object_iff capacity keys values).mp hb
    obtain ⟨-, hwk, hwv⟩ := (Datum.every_object_iff _ _ _ _).mp hw
    have hcollect := collectPairs_eq_stopAt ((Nat.zero_add _).trans hsizes)
      (fun d hd => ihk d hd (hbk d hd) (hwk d hd) (depth + 1))
      (fun d hd => ihv d hd (hbv d hd) (hwv d hd) (depth + 1))
    rw [Record.ofDatum, visits, failureAmong?_container rfl]
    simp only [hcollect]
    split
    · rfl
    · rw [List.drop_zero]
      cases failureAmong? depth (visitPairs _ _ _) <;> rfl
  | hollow => cases hw
  | _ => rfl

/-- **Encoding fails at the first part that offends**, and with nothing else. -/
theorem encode_eq_error_iff {d : Datum} (hb : d.isBalanced = true) (hw : d.isWhole = true)
    (e : EncodeError) :
    encode d = .error e ↔
      ∃ visit cause, FirstOffence d visit cause ∧ e = .failure ⟨visit.path, cause⟩ := by
  have hencode : encode d = stopAt (failureAmong? 0 (visits d)) (recordOf d).toItem.write := by
    rw [encode, ofDatum_eq_stopAt hb hw]
    cases failureAmong? 0 (visits d) <;> rfl
  rw [hencode]
  constructor
  · intro herror
    cases hfailure : failureAmong? 0 (visits d) with
    | none =>
      rw [hfailure] at herror
      cases herror
    | some failure =>
      rw [hfailure] at herror
      obtain ⟨visit, cause, hfirst, rfl⟩ := (failureAmong?_eq_some_iff d failure).mp hfailure
      exact ⟨visit, cause, hfirst, (Except.error.inj herror).symm⟩
  · rintro ⟨visit, cause, hfirst, rfl⟩
    rw [(failureAmong?_eq_some_iff d _).mpr ⟨visit, cause, hfirst, rfl⟩]
    rfl

/-- A function in a key is met before the value of the key, whatever that is. -/
theorem firstOffence_of_function_key (capacity : Nat) (callable : Option CallableId)
    (value : Datum) :
    let key := Datum.list 1 [.function callable]
    FirstOffence (.object capacity [key] [value])
      ⟨[.objectKey (keyText key.text), .listElement 0], .function callable⟩ .function := by
  intro key
  refine ⟨[⟨[], .object capacity [key] [value]⟩, ⟨[.objectKey (keyText key.text)], key⟩],
    (visits value).map (.within (.objectMember (keyText key.text))) ++ [], rfl, .function rfl, ?_⟩
  intro earlier hearlier cause hoffends
  rw [List.mem_cons, List.mem_singleton] at hearlier
  rcases hearlier with rfl | rfl <;> cases hoffends with
  | function hpart => cases hpart
  | tooDeep _ hpath => simp [maxDepth] at hpath

end Codec

/-! ## Encoding -/

open Codec

/-- **What is encoded, and what stops the encoder.** Data without functions are encoded when
    their lists and objects do not nest too deep. All others fail at the first part that
    offends: it is a function, or a list or an object inside too many others. No failure is
    about a kind. -/
theorem encode_stops_at_first_offence {d : Datum} (hb : d.isBalanced = true)
    (hw : d.isWhole = true) :
    ((∃ bytes, encode d = .ok bytes) ↔ d.isFunctionFree = true ∧ d.depth ≤ maxDepth) ∧
      (∀ e, encode d = .error e ↔
        ∃ visit cause, FirstOffence d visit cause ∧ e = .failure ⟨visit.path, cause⟩) ∧
      ∀ path code, encode d ≠ .error (.failure ⟨path, .invalidKind code⟩) := by
  refine ⟨?_, encode_eq_error_iff hb hw, ?_⟩
  · constructor
    · rintro ⟨bytes, hbytes⟩
      obtain ⟨⟨hencodable, hdepth⟩, -⟩ := (encode_eq_ok_iff hb bytes).mp hbytes
      exact ⟨((Datum.isEncodable_iff d).mp hencodable).1, hdepth⟩
    · rintro ⟨hfree, hdepth⟩
      exact ⟨_, (encode_eq_ok_iff hb _).mpr
        ⟨⟨(Datum.isEncodable_iff d).mpr ⟨hfree, hw⟩, hdepth⟩, rfl⟩⟩
  · intro path code herror
    obtain ⟨visit, cause, ⟨_, _, -, hoffends, -⟩, hfailure⟩ :=
      (encode_eq_error_iff hb hw _).mp herror
    cases hoffends with
    | function _ => cases hfailure
    | tooDeep _ _ => cases hfailure

/-- A function in a key is met before the value of the key, which nests too deep. -/
theorem function_in_key_met_first :
    let deep := Nat.repeat (fun d => .list 1 [d]) 255 (.list 0 [])
    let key := Datum.list 1 [.function none]
    encode (.object 1 [key] [deep]) = .error (.failure
      ⟨[.objectKey (keyText key.text), .listElement 0], .function⟩) := by
  intro deep key
  have hb : (Datum.object 1 [key] [deep]).isBalanced = true := by
    have hdeep : deep.isBalanced = true := Datum.every_repeat_list (fun _ => rfl) rfl 255
    simpa using ⟨rfl, hdeep⟩
  have hw : (Datum.object 1 [key] [deep]).isWhole = true := by
    have hdeep : deep.isWhole = true := Datum.every_repeat_list (fun _ => rfl) rfl 255
    refine (Datum.every_object_iff _ _ _ _).mpr ⟨rfl, ?_, ?_⟩
    · exact fun d hd => by rw [List.mem_singleton.mp hd]; rfl
    · exact fun d hd => by rw [List.mem_singleton.mp hd]; exact hdeep
  obtain ⟨-, hstops, -⟩ := encode_stops_at_first_offence hb hw
  exact (hstops _).mpr ⟨_, .function, firstOffence_of_function_key 1 none deep, rfl⟩

end ValueRuntime
