import ValueRuntime.Proofs.Codec.Decoded

/-! # Depth

    The encoder counts containers and the decoder counts levels, two for each container. The
    two limits are not the same one.

    * A datum without functions is encoded, or its containers nest too deeply.
    * The decoder has room for the two levels of each container that the encoder admits, and
      then for the map of one more. So it goes one container further, as long as there is
      nothing in that container but nil.
-/

namespace ValueRuntime

open Codec

namespace Codec

/-! ## What encoding refuses -/

/-- A failure for the depth, however far in. -/
def EncodeError.IsTooDeep (e : EncodeError) : Prop := ∃ path, e = .failure ⟨path, .tooDeep⟩

theorem EncodeError.IsTooDeep.within {e : EncodeError} (he : e.IsTooDeep) (step : Step) :
    (e.within step).IsTooDeep := by
  obtain ⟨path, rfl⟩ := he
  exact ⟨step :: path, rfl⟩

/-- Without functions, and with a value for each key, the depth is all that can be wrong. -/
theorem isTooDeep_of_ofDatum {d : Datum} (hb : d.isBalanced = true) (he : d.isEncodable = true)
    {depth : Nat} {e : EncodeError} (herror : Record.ofDatum depth d = .error e) :
    e.IsTooDeep :=
  ofDatum_error (P := EncodeError.IsTooDeep) hb he (fun _ step hdeep => hdeep.within step)
    ⟨[], rfl⟩ (fun hhollow => by cases hhollow) (fun f hfunction => by cases hfunction) herror

/-- **What becomes of a datum without functions:** it is encoded, or too deep. -/
theorem encode_cases {d : Datum} (hb : d.isBalanced = true) (he : d.isEncodable = true) :
    (d.depth ≤ maxDepth ∧ ∃ bytes, encode d = .ok bytes) ∨
      (maxDepth < d.depth ∧ ∃ e, e.IsTooDeep ∧ encode d = .error e) := by
  rcases Nat.lt_or_ge maxDepth d.depth with hdeep | hshallow
  · right
    refine ⟨hdeep, ?_⟩
    cases hencode : encode d with
    | ok bytes =>
      have := ((encode_eq_ok_iff hb bytes).mp hencode).1.2
      omega
    | error e =>
      refine ⟨e, ?_, rfl⟩
      rcases bind_eq_error hencode with hrecord | ⟨record, -, hdone⟩
      · exact isTooDeep_of_ofDatum hb he hrecord
      · cases hdone
  · left
    exact ⟨hshallow, _, (encode_eq_ok_iff hb _).mpr ⟨⟨he, hshallow⟩, rfl⟩⟩

end Codec

/-! ## Levels inside decoded data -/

namespace Datum.Decoded

variable {size levels : Nat} {d : Datum}

theorem of_list {capacity : Nat} {items : List Datum}
    (hlist : Decoded size levels (.list capacity items)) (hd : d ∈ items) :
    2 ≤ levels ∧ Decoded size (levels - 2) d := by
  cases hlist with
  | @list less _ _ hroom hitems =>
    have hpos := hroom d hd
    exact ⟨by omega, hitems d hd⟩

theorem of_object {capacity : Nat} {keys values : List Datum}
    (hobject : Decoded size levels (.object capacity keys values)) (hd : d ∈ keys ++ values) :
    2 ≤ levels ∧ Decoded size (levels - 2) d := by
  cases hobject with
  | @object less entries _ _ _ hroom hparts =>
    have hpos := hroom d hd
    exact ⟨by omega, hparts d hd⟩

/-- **Every container takes two levels** from what lies inside it. -/
theorem inside (hd : Decoded size levels d) {count : Nat} {part : Datum}
    (hpart : Inside count part d) :
    2 * count ≤ levels ∧ Decoded size (levels - 2 * count) part := by
  -- One container further in, two levels fewer are left for the rest of the way.
  have hnext : ∀ {levels count : Nat} {d : Datum} {part : Datum},
      2 ≤ levels ∧ Decoded size (levels - 2) d →
      (Decoded size (levels - 2) d →
        2 * count ≤ levels - 2 ∧ Decoded size (levels - 2 - 2 * count) part) →
      2 * (count + 1) ≤ levels ∧ Decoded size (levels - 2 * (count + 1)) part := by
    intro levels count d part ⟨hlevels, hd⟩ ih
    obtain ⟨hle, hpart⟩ := ih hd
    rw [show levels - 2 * (count + 1) = levels - 2 - 2 * count by omega]
    exact ⟨by omega, hpart⟩
  induction hpart generalizing levels with
  | here d => exact ⟨Nat.zero_le _, hd⟩
  | item hin _ ih => exact hnext (hd.of_list hin) ih
  | key hin _ ih => exact hnext (hd.of_object (List.mem_append_left _ hin)) ih
  | value hin _ ih => exact hnext (hd.of_object (List.mem_append_right _ hin)) ih

/-- Without a level left there is only nil. -/
theorem eq_nil (hd : Decoded size 0 d) : d = .nil := by
  cases hd
  rfl

end Datum.Decoded

/-! ## One container too many -/

/-- **How deep decoded data are.** Inside one container more than may be encoded there is only
    nil. So a decoded datum is encoded, or it has exactly one container too many and encoding
    it fails for its depth. -/
theorem decoded_depth_one_beyond {input : Bytes} {d : Datum} (hok : decode input = .ok d) :
    (∀ part, Datum.Inside (maxDepth + 1) part d → part = .nil) ∧
      ((d.depth ≤ maxDepth ∧ ∃ bytes, encode d = .ok bytes) ∨
        (d.depth = maxDepth + 1 ∧ ∃ e, e.IsTooDeep ∧ encode d = .error e)) := by
  have hd := decoded_of_decode hok
  have hinner : ∀ part, Datum.Inside (maxDepth + 1) part d → part = .nil := by
    intro part hpart
    exact (hd.inside hpart).2.eq_nil
  refine ⟨hinner, ?_⟩
  have hle : d.depth ≤ maxDepth + 1 := by
    apply Nat.le_of_not_lt
    intro hlt
    obtain ⟨part, hcontainer, hpart⟩ := (d.lt_depth_iff _).mp hlt
    rw [hinner part hpart] at hcontainer
    cases hcontainer
  rcases encode_cases hd.isBalanced hd.isEncodable with hfine | ⟨hdeep, htoo⟩
  · exact .inl hfine
  · exact .inr ⟨by omega, htoo⟩

/-- Lists in lists, around an empty one. -/
def Datum.nest : Nat → Datum
  | 0 => .list 8 []
  | count + 1 => .list 8 [nest count]

namespace Datum

theorem every_nest {p : Datum → Bool} (hempty : p (.list 8 []) = true)
    (hsingle : ∀ d, p (.list 8 [d]) = true) (count : Nat) : (nest count).every p = true := by
  induction count with
  | zero => exact (every_list_iff _ _ _).mpr ⟨hempty, by simp⟩
  | succ count ih => exact (every_list_iff _ _ _).mpr ⟨hsingle _, by simpa using ih⟩

theorem depth_nest (count : Nat) : (nest count).depth = count + 1 := by
  induction count with
  | zero => rfl
  | succ count ih => simp [nest, depth, depthOf, ih]

theorem rebuilt_nest (count : Nat) : rebuilt (nest count) = nest count := by
  induction count with
  | zero => rfl
  | succ count ih =>
    rw [nest, rebuilt, rebuiltAll, rebuiltAll, ih]
    rfl

theorem plain_nest (count : Nat) : (recordOf (nest count)).Plain (count + 1) := by
  induction count with
  | zero => exact plain_scalar (by decide) (by decide) rfl rfl 0
  | succ count ih =>
    refine .record (kind_recordOf_lt _) (show 0 < lengthLimit by decide)
      (show 1 < lengthLimit by decide) (show 0 < lengthLimit by decide) ?_
    intro part hpart
    obtain rfl := List.mem_singleton.mp hpart
    exact ih

end Datum

/-- As many lists as the encoder admits may stand around an empty one. -/
theorem decode_nest {count : Nat} (hcount : count ≤ maxDepth) :
    decode (recordOf (Datum.nest count)).toItem.write = .ok (Datum.nest count) := by
  have hb : (Datum.nest count).isBalanced = true := Datum.every_nest rfl (fun _ => rfl) count
  have he : (Datum.nest count).isEncodable = true := Datum.every_nest rfl (fun _ => rfl) count
  have hf : (Datum.nest count).fits = true := Datum.every_nest rfl (fun _ => rfl) count
  have hu : (Datum.nest count).isUtf8 = true := Datum.every_nest rfl (fun _ => rfl) count
  have hlevels : 2 * (count + 1) - 1 ≤ maxLevels := by
    simp only [maxDepth] at hcount
    simp only [maxLevels]
    omega
  rw [(Datum.plain_nest count).decode_write hlevels, fits_recordOf hb, isUtf8_recordOf,
    toDatum_recordOf hb he, Datum.rebuilt_nest, hf, hu]
  rfl

theorem nest_one_beyond :
    let d := Datum.nest maxDepth
    decode (recordOf d).toItem.write = .ok d ∧ d.depth = maxDepth + 1 ∧
      ∃ e, e.IsTooDeep ∧ encode d = .error e := by
  intro d
  have hok := decode_nest (Nat.le_refl maxDepth)
  have hdepth := Datum.depth_nest maxDepth
  rcases (decoded_depth_one_beyond hok).2 with ⟨hle, -⟩ | ⟨-, htoo⟩
  · omega
  · exact ⟨hok, hdepth, htoo⟩

/-- **The decoder accepts what the encoder cannot produce.** -/
theorem decoded_too_deep_to_encode :
    ∃ input d, decode input = .ok d ∧ ¬ d.depth ≤ maxDepth ∧
      ∃ e, e.IsTooDeep ∧ encode d = .error e := by
  have hb : (Datum.nest maxDepth).isBalanced = true := Datum.every_nest rfl (fun _ => rfl) _
  have he : (Datum.nest maxDepth).isEncodable = true := Datum.every_nest rfl (fun _ => rfl) _
  have hdepth := Datum.depth_nest maxDepth
  refine ⟨_, Datum.nest maxDepth, decode_nest (Nat.le_refl maxDepth), by omega, ?_⟩
  rcases encode_cases hb he with ⟨hle, -⟩ | ⟨-, htoo⟩
  · omega
  · exact htoo

end ValueRuntime
