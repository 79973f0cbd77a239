import ValueRuntime.Codec.Encode
import ValueRuntime.Operator
import ValueRuntime.Proofs.Datum.Every
import ValueRuntime.Proofs.Results

/-! # Balanced data are read without an index fault

    Writing the text of a datum and encoding it look up the value of each key by its place.
    Both can only miss a value in an object that has fewer values than keys.
-/

namespace ValueRuntime

namespace Datum

/-! ## Texts -/

theorem texts_eq_map (ds : List Datum) : texts ds = ds.map text := by
  induction ds with
  | nil => rfl
  | cons d rest ih => rw [texts, ih, List.map_cons]

theorem allTexts_error {results : List (Except Fault Bytes)} {fault : Fault}
    (hf : allTexts results = .error fault) : .error fault ∈ results := by
  induction results with
  | nil => cases hf
  | cons first rest ih =>
    rcases bind_eq_error hf with hfirst | ⟨text, -, hrest⟩
    · rw [hfirst]
      exact List.mem_cons_self
    · rcases bind_eq_error hrest with hmore | ⟨more, -, hdone⟩
      · exact List.mem_cons_of_mem _ (ih hmore)
      · cases hdone

/-- A fault among the pairs of an object is a fault of a key or a value, or a key has no
    value. -/
theorem pairTexts_error {values keys : List (Except Fault Bytes)} {index : Nat} {fault : Fault}
    (hf : pairTexts values index keys = .error fault) :
    .error fault ∈ keys ∨ .error fault ∈ values ∨ values.length < index + keys.length := by
  induction keys generalizing index with
  | nil => cases hf
  | cons key rest ih =>
    rcases bind_eq_error hf with hkey | ⟨keyText, -, hf'⟩
    · rw [hkey]
      exact Or.inl List.mem_cons_self
    · rcases bind_eq_error hf' with hvalue | ⟨valueText, -, hf''⟩
      · rcases Nat.lt_or_ge index values.length with hlt | hge
        · rw [List.getElem?_eq_getElem hlt, Option.getD_some] at hvalue
          exact Or.inr (Or.inl (hvalue ▸ List.getElem_mem hlt))
        · simp only [List.length_cons]
          omega
      · rcases bind_eq_error hf'' with hmore | ⟨more, -, hdone⟩
        · rcases ih hmore with hin | hin | hlong
          · exact Or.inl (List.mem_cons_of_mem _ hin)
          · exact Or.inr (Or.inl hin)
          · simp only [List.length_cons]
            omega
        · cases hdone

/-- **The text of a balanced datum** needs no value that is missing. -/
theorem text_ne_index {d : Datum} (hb : d.isBalanced = true) (index length : Nat) :
    d.text ≠ .error (.indexOutOfRange index length) := by
  induction d using treeInduction with
  | nil => exact fun hf => by cases hf
  | boolean b => exact fun hf => by cases hf
  | number x => exact fun hf => by cases hf
  | string s => exact fun hf => by cases hf
  | function f => exact fun hf => by cases hf
  | hollow => exact fun hf => by cases hf
  | list capacity items ih =>
    intro hf
    rw [isBalanced_list_iff] at hb
    rw [text, texts_eq_map] at hf
    rcases bind_eq_error hf with hitem | ⟨parts, -, hdone⟩
    · obtain ⟨d, hd, htext⟩ := List.mem_map.mp (allTexts_error hitem)
      exact ih d hd (hb d hd) htext
    · cases hdone
  | object capacity keys values ihk ihv =>
    intro hf
    obtain ⟨hsizes, hkeys, hvalues⟩ := (isBalanced_object_iff capacity keys values).mp hb
    rw [text, texts_eq_map, texts_eq_map] at hf
    rcases bind_eq_error hf with hpair | ⟨parts, -, hdone⟩
    · rcases pairTexts_error hpair with hin | hin | hlong
      · obtain ⟨d, hd, htext⟩ := List.mem_map.mp hin
        exact ihk d hd (hkeys d hd) htext
      · obtain ⟨d, hd, htext⟩ := List.mem_map.mp hin
        exact ihv d hd (hvalues d hd) htext
      · simp only [List.length_map] at hlong
        omega
    · cases hdone

end Datum

/-! ## Operators -/

/-- Addition asks for the texts of its operands, and nothing else can fault. -/
theorem Operator.apply_ne_index (op : Operator) {a b : Datum} (ha : a.isBalanced = true)
    (hb : b.isBalanced = true) (index length : Nat) :
    op.apply a b ≠ .error (.indexOutOfRange index length) := by
  intro hf
  cases op with
  | add =>
    have htexts : (do
        let left ← a.text
        let right ← b.text
        return Datum.string (left ++ right)) ≠ .error (.indexOutOfRange index length) := by
      intro hjoin
      rcases bind_eq_error hjoin with hleft | ⟨left, -, hrest⟩
      · exact Datum.text_ne_index ha index length hleft
      · rcases bind_eq_error hrest with hright | ⟨right, -, hdone⟩
        · exact Datum.text_ne_index hb index length hright
        · cases hdone
    simp only [Operator.apply] at hf
    unfold addData at hf
    split at hf
    · cases hf
    · exact htexts hf
    · exact htexts hf
    · cases hf
  | _ => cases hf

theorem UnaryOperator.apply_ne_index (op : UnaryOperator) {a : Datum}
    (ha : a.isBalanced = true) (index length : Nat) :
    op.apply a ≠ .error (.indexOutOfRange index length) := by
  intro hf
  cases op with
  | negate =>
    simp only [UnaryOperator.apply] at hf
    split at hf <;> cases hf
  | toText =>
    rcases bind_eq_error hf with htext | ⟨text, -, hdone⟩
    · exact Datum.text_ne_index ha index length htext
    · cases hdone
  | _ => cases hf

namespace Codec

/-! ## Encoding -/

theorem ofData_eq_map (depth : Nat) (ds : List Datum) :
    ofData depth ds = ds.map (Record.ofDatum depth) := by
  induction ds with
  | nil => rfl
  | cons d rest ih => rw [ofData, ih, List.map_cons]

/-- An item that cannot be encoded stops its list, at the item's place. -/
theorem collectItems_error {results : List (Except EncodeError Record)} {index : Nat}
    {e : EncodeError} (herror : collectItems index results = .error e) :
    ∃ step inner, .error inner ∈ results ∧ e = inner.within step := by
  induction results generalizing index with
  | nil => cases herror
  | cons first rest ih =>
    rcases bind_eq_error herror with hfirst | ⟨record, -, hrest⟩
    · obtain ⟨inner, hinner, rfl⟩ := mapError_eq_error hfirst
      exact ⟨_, inner, by rw [hinner]; exact List.mem_cons_self, rfl⟩
    · rcases bind_eq_error hrest with hmore | ⟨more, -, hdone⟩
      · obtain ⟨step, inner, hmem, rfl⟩ := ih hmore
        exact ⟨step, inner, List.mem_cons_of_mem _ hmem, rfl⟩
      · cases hdone

/-- So does a key or a value of an object, and a value that is missing. -/
theorem collectPairs_error {values : List (Except EncodeError Record)}
    {keys : List (Bytes × Except EncodeError Record)} {index : Nat} {e : EncodeError}
    (herror : collectPairs values index keys = .error e) :
    (∃ step inner, (.error inner ∈ keys.map Prod.snd ∨ .error inner ∈ values) ∧
      e = inner.within step) ∨ values.length < index + keys.length := by
  induction keys generalizing index with
  | nil => cases herror
  | cons entry rest ih =>
    obtain ⟨shown, key⟩ := entry
    rw [List.length_cons]
    cases hvalue : values[index]? with
    | none =>
      have := List.getElem?_eq_none_iff.mp hvalue
      omega
    | some value =>
      rw [collectPairs, hvalue] at herror
      rcases bind_eq_error herror with hkey | ⟨first, -, herror'⟩
      · obtain ⟨inner, hinner, rfl⟩ := mapError_eq_error hkey
        exact .inl ⟨_, inner, .inl (by simp [hinner]), rfl⟩
      · rcases bind_eq_error herror' with hsecond | ⟨second, -, herror''⟩
        · obtain ⟨inner, hinner, rfl⟩ := mapError_eq_error hsecond
          rw [hinner] at hvalue
          exact .inl ⟨_, inner, .inr (List.mem_of_getElem? hvalue), rfl⟩
        · rcases bind_eq_error herror'' with hmore | ⟨more, -, hdone⟩
          · rcases ih hmore with ⟨step, inner, hmem, rfl⟩ | hlong
            · exact .inl ⟨step, inner, hmem.imp_left (List.mem_cons_of_mem _), rfl⟩
            · omega
          · cases hdone

/-- The way to a fault is not part of it. -/
theorem EncodeError.eq_fault_of_within {e : EncodeError} {step : Step} {fault : Fault}
    (hf : .fault fault = e.within step) : e = .fault fault := by
  cases e with
  | fault cause =>
    cases hf
    rfl
  | failure inner => cases hf

/-- **What encoding a balanced datum can stop with.** A property of errors that does not depend
    on the way to them holds of every error, if it holds of a depth that is too great, and of
    what hollow objects and functions fail with where there can be any. -/
theorem ofDatum_error {p : Datum → Bool} {P : EncodeError → Prop} {d : Datum}
    (hb : d.isBalanced = true) (hd : d.every p = true)
    (hwithin : ∀ e step, P e → P (e.within step)) (htooDeep : P (.failure (.here .tooDeep)))
    (hhollow : p .hollow = true → P (.fault .noContents))
    (hfunction : ∀ f, p (.function f) = true → P (.failure (.here .function))) {depth : Nat}
    {e : EncodeError} (herror : Record.ofDatum depth d = .error e) : P e := by
  induction d using Datum.treeInduction generalizing depth e with
  | list capacity items ih =>
    rw [Datum.isBalanced_list_iff] at hb
    obtain ⟨-, hitems⟩ := (Datum.every_list_iff _ _ _).mp hd
    rw [Record.ofDatum, ofData_eq_map] at herror
    split at herror
    · cases herror
      exact htooDeep
    · rcases bind_eq_error herror with hitem | ⟨records, -, hdone⟩
      · obtain ⟨step, inner, hmem, rfl⟩ := collectItems_error hitem
        obtain ⟨d, hin, hinner⟩ := List.mem_map.mp hmem
        exact hwithin inner step (ih d hin (hb d hin) (hitems d hin) hinner)
      · cases hdone
  | object capacity keys values ihk ihv =>
    obtain ⟨hsizes, hbk, hbv⟩ := (Datum.isBalanced_object_iff capacity keys values).mp hb
    obtain ⟨-, hkeys, hvalues⟩ := (Datum.every_object_iff _ _ _ _).mp hd
    rw [Record.ofDatum, ofData_eq_map, ofData_eq_map] at herror
    split at herror
    · cases herror
      exact htooDeep
    · rcases bind_eq_error herror with hpair | ⟨pairs, -, hdone⟩
      · rcases collectPairs_error hpair with ⟨step, inner, hmem, rfl⟩ | hlong
        · rw [List.map_snd_zip (by simp)] at hmem
          rcases hmem with hmem | hmem
          · obtain ⟨d, hin, hinner⟩ := List.mem_map.mp hmem
            exact hwithin inner step (ihk d hin (hbk d hin) (hkeys d hin) hinner)
          · obtain ⟨d, hin, hinner⟩ := List.mem_map.mp hmem
            exact hwithin inner step (ihv d hin (hbv d hin) (hvalues d hin) hinner)
        · -- As many values as keys: no key is without one.
          simp only [List.length_map, List.length_zip, Nat.min_self] at hlong
          omega
      · cases hdone
  | hollow =>
    rw [Record.ofDatum] at herror
    split at herror
    · cases herror
      exact htooDeep
    · cases herror
      exact hhollow hd
  | function f =>
    cases herror
    exact hfunction f hd
  | _ => cases herror

/-- **Encoding a balanced datum** needs no value that is missing. -/
theorem ofDatum_ne_index {d : Datum} (hb : d.isBalanced = true) (depth index length : Nat) :
    Record.ofDatum depth d ≠ .error (.fault (.indexOutOfRange index length)) := by
  intro herror
  have hother : ∀ e step, e ≠ EncodeError.fault (.indexOutOfRange index length) →
      e.within step ≠ EncodeError.fault (.indexOutOfRange index length) :=
    fun e step hne heq => hne (EncodeError.eq_fault_of_within heq.symm)
  exact ofDatum_error (P := fun e => e ≠ .fault (.indexOutOfRange index length)) hb hb hother
    (by simp) (by simp) (by simp) herror rfl

theorem encode_ne_index {d : Datum} (hb : d.isBalanced = true) (index length : Nat) :
    encode d ≠ .error (.fault (.indexOutOfRange index length)) := by
  intro hf
  rcases bind_eq_error hf with hrecord | ⟨record, -, hdone⟩
  · exact ofDatum_ne_index hb 0 index length hrecord
  · cases hdone

end Codec

end ValueRuntime
