import ValueRuntime.Proofs.Codec.Records

/-! # What reading gives

    Nothing is known about the bytes that are read. Whatever they are, an item that is read
    from them nests within the levels that were allowed, its arrays are no longer than is
    read, and its texts are no longer than the input. So much is kept by the records that are
    made of items.

    * `gives_readItem` is the statement about reading, one byte string at a time.
    * `Item.Admitted.filling` carries it from items to records.
-/

namespace ValueRuntime

/-! ## Texts in chunks -/

namespace Utf8

theorem isValid_iff (s : Bytes) : isValid s = true ↔ ∀ p ∈ pieces s, p.point?.isSome := by
  have hall : ∀ ps : List Piece,
      (ps.mapM Piece.point?).isSome = true ↔ ∀ p ∈ ps, p.point?.isSome := by
    intro ps
    induction ps with
    | nil => simp
    | cons p rest ih =>
      rw [List.mapM_cons, List.forall_mem_cons, ← ih]
      cases p.point? <;> cases rest.mapM Piece.point? <;> simp
  exact hall (pieces s)

/-- The pieces of a byte string without strays do not depend on what follows it. -/
theorem pieces_append {s : Bytes} (hs : ∀ p ∈ pieces s, p.point?.isSome) (t : Bytes) :
    pieces (s ++ t) = pieces s ++ pieces t := by
  -- A stray at the front contradicts `hs`; a code point is complete without the bytes behind it.
  have hstray : ∀ {b : UInt8} {rest : List Piece},
      (∀ p ∈ Piece.stray b :: rest, p.point?.isSome) → False := by
    intro b rest hall
    simpa [Piece.point?] using hall _ List.mem_cons_self
  have hmore : ∀ {q : Piece} {rest : List Piece}, (∀ p ∈ q :: rest, p.point?.isSome) →
      ∀ p ∈ rest, p.point?.isSome := fun hall p hp => hall p (List.mem_cons_of_mem _ hp)
  fun_induction pieces s with
  | case1 => rfl
  | case2 a r1 hone ih =>
    rw [List.cons_append, pieces.eq_def]
    simp [hone, ih (hmore hs)]
  | case4 a hlong b r2 htwo ih =>
    rw [List.cons_append, List.cons_append, pieces.eq_def]
    simp [hlong, htwo, ih (hmore hs)]
  | case6 a hlong b htwo c r3 hthree ih =>
    rw [List.cons_append, List.cons_append, List.cons_append, pieces.eq_def]
    simp [hlong, htwo, hthree, ih (hmore hs)]
  | case8 a hlong b htwo c hthree d r4 hfour ih =>
    simp [pieces, hlong, htwo, hthree, hfour, ih (hmore hs)]
  | _ => exact absurd hs hstray

/-- A text is valid when its chunks are: no code point is cut in two. -/
theorem isValid_flatten {chunks : List Bytes} (hall : chunks.all isValid = true) :
    isValid chunks.flatten = true := by
  induction chunks with
  | nil => rfl
  | cons chunk rest ih =>
    rw [List.all_cons, Bool.and_eq_true] at hall
    have hchunk := (isValid_iff chunk).mp hall.1
    have hrest := (isValid_iff _).mp (ih hall.2)
    rw [List.flatten_cons, isValid_iff, pieces_append hchunk]
    intro p hp
    rcases List.mem_append.mp hp with hin | hin
    · exact hchunk p hin
    · exact hrest p hin

end Utf8

namespace Codec

/-! ## Items -/

/-- **An admitted item:** one that may come of reading at most `size` bytes when `levels`
    levels can still be opened. -/
inductive Item.Admitted (size : Nat) : (levels : Nat) → Item → Prop where
  | unsigned {levels : Nat} (n : Nat) : Admitted size levels (.unsigned n)
  | negative {levels : Nat} (n : Nat) : Admitted size levels (.negative n)
  | bytes {levels : Nat} (chunks : List Bytes) : Admitted size levels (.bytes chunks)
  | text {levels : Nat} {chunks : List Bytes} (hsize : chunks.flatten.length ≤ size) :
      Admitted size levels (.text chunks)
  | array {levels : Nat} {items : List Item} (hcount : items.length ≤ maxCount)
      (hitems : ∀ item ∈ items, Admitted size levels item) :
      Admitted size (levels + 1) (.array items)
  | map {levels : Nat} {entries : List Item}
      (hentries : ∀ item ∈ entries, Admitted size levels item) :
      Admitted size (levels + 1) (.map entries)
  | tag {levels : Nat} (number : Nat) {content : Item} (hcontent : Admitted size levels content) :
      Admitted size levels (.tag number content)
  | simple {levels : Nat} (n : Nat) : Admitted size levels (.simple n)
  | float {levels : Nat} (x : Number) : Admitted size levels (.float x)

theorem Item.Admitted.mono {size levels levels' : Nat} {item : Item}
    (ha : item.Admitted size levels) (hle : levels ≤ levels') : item.Admitted size levels' := by
  induction ha generalizing levels' with
  | unsigned n => exact .unsigned n
  | negative n => exact .negative n
  | bytes chunks => exact .bytes chunks
  | text hsize => exact .text hsize
  | array hcount hitems ih =>
    obtain ⟨more, rfl⟩ : ∃ more, levels' = more + 1 := ⟨levels' - 1, by omega⟩
    exact .array hcount fun item hitem => ih item hitem (by omega)
  | map hentries ih =>
    obtain ⟨more, rfl⟩ : ∃ more, levels' = more + 1 := ⟨levels' - 1, by omega⟩
    exact .map fun item hitem => ih item hitem (by omega)
  | tag number hcontent ih => exact .tag number (ih hle)
  | simple n => exact .simple n
  | float x => exact .float x

/-- A reader **gives** only what is good, and leaves no more bytes than it was given. -/
def Gives {α : Type} (read : Reader α) (size : Nat) (good : α → Prop) : Prop :=
  ∀ input a rest, input.length ≤ size → read input = .ok (a, rest) →
    good a ∧ rest.length ≤ input.length

theorem length_of_take {count : Nat} {input s rest : Bytes}
    (hok : take count input = .ok (s, rest)) :
    s.length + rest.length = input.length := by
  unfold take at hok
  simp only at hok
  split at hok
  · cases hok
    simp only [List.length_take, List.length_drop]
    omega
  · cases hok

theorem length_of_readHead {input rest : Bytes} {head : Head}
    (hok : readHead input = .ok (head, rest)) : rest.length ≤ input.length := by
  cases input with
  | nil => cases hok
  | cons lead behind =>
    have hlonger : behind.length ≤ (lead :: behind).length := by simp
    simp only [readHead] at hok
    split at hok
    · cases hok
      exact hlonger
    · split at hok
      · obtain ⟨⟨digits, behind'⟩, htake, hok'⟩ := bind_eq_ok hok
        have hlength := length_of_take htake
        split at hok'
        · cases hok'
        · cases hok'
          simp only at hlength ⊢
          omega
      · split at hok
        · cases hok
          exact hlonger
        · cases hok

theorem length_of_readString {length : Nat} {input s rest : Bytes}
    (hok : readString length input = .ok (s, rest)) : s.length + rest.length = input.length := by
  unfold readString at hok
  split at hok
  · cases hok
  · exact length_of_take hok

theorem length_of_readChunks {major fuel : Nat} {input rest : Bytes} {chunks : List Bytes}
    (hok : readChunks major fuel input = .ok (chunks, rest)) :
    chunks.flatten.length + rest.length ≤ input.length := by
  induction fuel generalizing input chunks rest with
  | zero => cases input <;> cases hok
  | succ fuel ih =>
    cases input with
    | nil => cases hok
    | cons lead behind =>
      simp only [readChunks] at hok
      split at hok
      · cases hok
        simp
      · split at hok
        · cases hok
        · obtain ⟨⟨head, behind'⟩, hhead, hok'⟩ := bind_eq_ok hok
          have hhead' := length_of_readHead hhead
          simp only at hok'
          split at hok'
          · cases hok'
          · obtain ⟨⟨chunk, after⟩, hchunk, hok''⟩ := bind_eq_ok hok'
            obtain ⟨⟨more, last⟩, hmore, hdone⟩ := bind_eq_ok hok''
            cases hdone
            have hfirst := length_of_readString hchunk
            have hrest := ih hmore
            simp only [List.flatten_cons, List.length_append] at hrest ⊢
            omega

section Contents

variable {read : Reader Item} {size : Nat} {good : Item → Prop}

theorem Gives.many (hread : Gives read size good) {count : Nat} {input rest : Bytes}
    {items : List Item} (hsize : input.length ≤ size)
    (hok : readMany read count input = .ok (items, rest)) :
    (∀ item ∈ items, good item) ∧ items.length = count ∧ rest.length ≤ input.length := by
  induction count generalizing input items with
  | zero =>
    cases hok
    simp
  | succ count ih =>
    obtain ⟨⟨first, behind⟩, hfirst, hok'⟩ := bind_eq_ok hok
    obtain ⟨⟨more, last⟩, hmore, hdone⟩ := bind_eq_ok hok'
    cases hdone
    obtain ⟨hgood, hbehind⟩ := hread input first behind hsize hfirst
    obtain ⟨hall, hcount, hlast⟩ := ih (by omega) hmore
    refine ⟨List.forall_mem_cons.mpr ⟨hgood, hall⟩, by rw [List.length_cons, hcount], by omega⟩

theorem Gives.untilBreak (hread : Gives read size good) {room : Nat} {input rest : Bytes}
    {items : List Item} (hsize : input.length ≤ size)
    (hok : readUntilBreak read room input = .ok (items, rest)) :
    (∀ item ∈ items, good item) ∧ items.length ≤ room ∧ rest.length ≤ input.length := by
  induction room generalizing input items with
  | zero =>
    cases input with
    | nil => cases hok
    | cons lead behind =>
      simp only [readUntilBreak] at hok
      split at hok
      · cases hok
        simp
      · -- Without room an item is read and refused.
        obtain ⟨-, -, hok'⟩ := bind_eq_ok hok
        cases hok'
  | succ room ih =>
    cases input with
    | nil => cases hok
    | cons lead behind =>
      rw [readUntilBreak] at hok
      split at hok
      · cases hok
        simp
      · obtain ⟨⟨first, after⟩, hfirst, hok'⟩ := bind_eq_ok hok
        obtain ⟨⟨more, last⟩, hmore, hdone⟩ := bind_eq_ok hok'
        cases hdone
        obtain ⟨hgood, hafter⟩ := hread _ first after hsize hfirst
        obtain ⟨hall, hcount, hlast⟩ := ih (by omega) hmore
        refine ⟨List.forall_mem_cons.mpr ⟨hgood, hall⟩, by rw [List.length_cons]; omega, by omega⟩

/-- The contents of an array or a map are good, and an array has no more of them than are read. -/
theorem Gives.contents (hread : Gives read size good) {head : Head} {input rest : Bytes}
    {item : Item} (hsize : input.length ≤ size)
    (hok : readContents read head input = .ok (item, rest)) :
    (∃ items, (∀ part ∈ items, good part) ∧
      (item = .map items ∨ item = .array items ∧ items.length ≤ maxCount)) ∧
      rest.length ≤ input.length := by
  unfold readContents at hok
  cases hargument : head.argument with
  | definite count =>
    simp only [hargument] at hok
    obtain ⟨_, hcheck, hok'⟩ := bind_eq_ok hok
    obtain ⟨⟨items, behind⟩, hmany, hdone⟩ := bind_eq_ok hok'
    cases hdone
    obtain ⟨hall, hcount, hbehind⟩ := hread.many hsize hmany
    refine ⟨⟨items, hall, ?_⟩, hbehind⟩
    unfold checkCount at hcheck
    split at hcheck
    · cases hcheck
    · split at hcheck
      · cases hcheck
      · by_cases hmap : (head.major == 5) = true
        · simp [hmap]
        · simp only [hmap] at hcount ⊢
          refine .inr ⟨rfl, ?_⟩
          simp at hcount
          omega
  | indefinite =>
    simp only [hargument] at hok
    obtain ⟨⟨items, behind⟩, hmany, hok'⟩ := bind_eq_ok hok
    obtain ⟨hall, hcount, hbehind⟩ := hread.untilBreak hsize hmany
    split at hok'
    · cases hok'
    · cases hok'
      refine ⟨⟨items, hall, ?_⟩, hbehind⟩
      by_cases hmap : (head.major == 5) = true
      · simp [hmap]
      · simp only [hmap] at hcount ⊢
        exact .inr ⟨rfl, by simpa using hcount⟩

end Contents

theorem admitted_simpleOrFloat (size levels info n : Nat) :
    (simpleOrFloat info n).Admitted size levels := by
  unfold simpleOrFloat
  split
  · exact .float _
  · exact .float _
  · exact .float _
  · exact .simple n

/-- **What reading an item gives.** The induction is on the fuel, for all levels at once: what
    an array or a map holds is read with one level less. -/
theorem gives_readItem (size fuel levels : Nat) :
    Gives (readItem fuel levels) size (Item.Admitted size levels) := by
  induction fuel generalizing levels with
  | zero =>
    intro input item rest hsize hok
    cases hok
  | succ fuel ih =>
    intro input item rest hsize hok
    rw [readItem] at hok
    obtain ⟨⟨head, behind⟩, hhead, hok'⟩ := bind_eq_ok hok
    have hbehind := length_of_readHead hhead
    -- A tag takes its content from the bytes behind its head, within as many levels or one less.
    have htag : ∀ {inner number : Nat}, inner ≤ levels → (do
        let read ← readItem fuel inner behind
        return (Item.tag number read.1, read.2)) = .ok (item, rest) →
        item.Admitted size levels ∧ rest.length ≤ input.length := by
      intro inner number hinner hread
      obtain ⟨⟨content, after⟩, hcontent, hdone⟩ := bind_eq_ok hread
      cases hdone
      obtain ⟨hadmitted, hafter⟩ := ih inner behind content _ (by omega) hcontent
      exact ⟨.tag number (hadmitted.mono hinner), Nat.le_trans hafter hbehind⟩
    simp only at hok'
    split at hok'
    · cases hok'
      exact ⟨.unsigned _, hbehind⟩
    · cases hok'
      exact ⟨.negative _, hbehind⟩
    · obtain ⟨⟨s, after⟩, hstring, hdone⟩ := bind_eq_ok hok'
      cases hdone
      have hlength := length_of_readString hstring
      exact ⟨.bytes _, by simp only; omega⟩
    · obtain ⟨⟨s, after⟩, hstring, hdone⟩ := bind_eq_ok hok'
      cases hdone
      have hlength := length_of_readString hstring
      simp only
      exact ⟨.text (by simp only [List.flatten_singleton]; omega), by omega⟩
    · obtain ⟨⟨chunks, after⟩, hchunks, hdone⟩ := bind_eq_ok hok'
      cases hdone
      have hlength := length_of_readChunks hchunks
      exact ⟨.bytes _, by simp only; omega⟩
    · obtain ⟨⟨chunks, after⟩, hchunks, hdone⟩ := bind_eq_ok hok'
      cases hdone
      have hlength := length_of_readChunks hchunks
      simp only
      exact ⟨.text (by omega), by omega⟩
    · split at hok'
      · cases hok'
      · split at hok'
        · obtain ⟨_, -, hok''⟩ := bind_eq_ok hok'
          split at hok''
          · cases hok''
          · exact htag (Nat.sub_le _ _) hok''
        · exact htag (Nat.le_refl _) hok'
    · cases hok'
      exact ⟨admitted_simpleOrFloat size levels _ _, hbehind⟩
    · split at hok'
      · cases hok'
      · next hlevels =>
        obtain ⟨less, rfl⟩ : ∃ less, levels = less + 1 := ⟨levels - 1, by simp at hlevels; omega⟩
        obtain ⟨⟨items, hitems, hitem⟩, hrest⟩ := (ih less).contents (by omega) hok'
        refine ⟨?_, by omega⟩
        rcases hitem with rfl | ⟨rfl, hcount⟩
        · exact .map hitems
        · exact .array hcount hitems

theorem Item.admitted_of_read {input : Bytes} {item : Item} (hok : Item.read input = .ok item) :
    item.Admitted input.length maxLevels := by
  unfold Item.read at hok
  split at hok
  · cases hok
  · obtain ⟨⟨item', rest⟩, hread, hok'⟩ := bind_eq_ok hok
    simp only at hok'
    split at hok'
    · cases hok'
    · cases hok'
      exact (gives_readItem input.length _ _ input item rest (Nat.le_refl _) hread).1

/-! ## Records -/

theorem refuse_ne_ok {α : Type} (item : Item) (a : α) : refuse item ≠ .ok a := by
  intro hok
  cases item with
  | text chunks =>
    obtain ⟨_, -, hthrow⟩ := bind_eq_ok hok
    cases hthrow
  | _ => cases hok

/-- What is no record and no array may still be null. -/
theorem eq_of_null {α : Type} {item : Item} {a b : α}
    (hok : (if isNull item then .ok a else refuse item) = .ok b) : b = a := by
  split at hok
  · cases hok
    rfl
  · exact absurd hok (refuse_ne_ok item b)

/-- **An admitted record:** one that may come of an admitted item. Its map takes one level and
    the arrays of its parts another; null takes none. -/
inductive Record.Admitted (size : Nat) : (levels : Nat) → Record → Prop where
  | null {levels : Nat} : Admitted size levels .empty
  | record {levels : Nat} {r : Record} (hutf8 : Utf8.isValid r.text = true)
      (htext : r.text.length ≤ size) (hitems : r.items.length ≤ maxCount)
      (hkeys : r.keys.length ≤ maxCount) (hroom : ∀ part ∈ r.items ++ r.keys, 0 < levels)
      (hparts : ∀ part ∈ r.items ++ r.keys, Admitted size (levels - 1) part) :
      Admitted size (levels + 1) r

/-- What an item gives to the field it is read for. -/
structure Item.Filling (size levels : Nat) (item : Item) : Prop where
  record : ∀ r, Record.ofItem item = .ok r → r.Admitted size levels
  records : ∀ rs, readRecords item = .ok rs →
    rs.length ≤ maxCount ∧ ∀ r ∈ rs, 0 < levels ∧ r.Admitted size (levels - 1)
  text : ∀ s, readText item = .ok s → Utf8.isValid s = true ∧ s.length ≤ size

/-- The fields of a record that was read from a map with `levels` levels inside. -/
theorem Record.Admitted.fields {size levels : Nat} {r : Record}
    (ha : r.Admitted size (levels + 1)) :
    (Utf8.isValid r.text = true ∧ r.text.length ≤ size) ∧
      (r.items.length ≤ maxCount ∧
        ∀ part ∈ r.items, 0 < levels ∧ part.Admitted size (levels - 1)) ∧
      (r.keys.length ≤ maxCount ∧
        ∀ part ∈ r.keys, 0 < levels ∧ part.Admitted size (levels - 1)) := by
  cases ha with
  | null => simp [Record.empty, Utf8.isValid, Utf8.codePoints?, Utf8.pieces]
  | record hutf8 htext hitems hkeys hroom hparts =>
    refine ⟨⟨hutf8, htext⟩, ⟨hitems, fun part hp => ?_⟩, ⟨hkeys, fun part hp => ?_⟩⟩
    · exact ⟨hroom part (List.mem_append_left _ hp), hparts part (List.mem_append_left _ hp)⟩
    · exact ⟨hroom part (List.mem_append_right _ hp), hparts part (List.mem_append_right _ hp)⟩

theorem Record.Admitted.of_fields {size levels : Nat} {r : Record}
    (htext : Utf8.isValid r.text = true ∧ r.text.length ≤ size)
    (hitems : r.items.length ≤ maxCount ∧
      ∀ part ∈ r.items, 0 < levels ∧ part.Admitted size (levels - 1))
    (hkeys : r.keys.length ≤ maxCount ∧
      ∀ part ∈ r.keys, 0 < levels ∧ part.Admitted size (levels - 1)) :
    r.Admitted size (levels + 1) := by
  have hparts : ∀ part ∈ r.items ++ r.keys, 0 < levels ∧ part.Admitted size (levels - 1) := by
    intro part hp
    rcases List.mem_append.mp hp with hin | hin
    · exact hitems.2 part hin
    · exact hkeys.2 part hin
  exact .record htext.1 htext.2 hitems.1 hkeys.1 (fun part hp => (hparts part hp).1)
    fun part hp => (hparts part hp).2

/-- A field that is read keeps a record admitted. -/
theorem Field.admitted_of_read {size levels : Nat} {record result : Record} {content : Item}
    {field : Field} (hrecord : record.Admitted size (levels + 1))
    (hcontent : content.Filling size levels) (hok : field.read record content = .ok result) :
    result.Admitted size (levels + 1) := by
  obtain ⟨htext, hitems, hkeys⟩ := hrecord.fields
  cases field with
  | kind =>
    obtain ⟨kind, -, hdone⟩ := bind_eq_ok hok
    cases hdone
    exact .of_fields htext hitems hkeys
  | flag =>
    obtain ⟨flag, -, hdone⟩ := bind_eq_ok hok
    cases hdone
    exact .of_fields htext hitems hkeys
  | number =>
    obtain ⟨number, -, hdone⟩ := bind_eq_ok hok
    cases hdone
    exact .of_fields htext hitems hkeys
  | text =>
    obtain ⟨text, hread, hdone⟩ := bind_eq_ok hok
    cases hdone
    exact .of_fields (hcontent.text text hread) hitems hkeys
  | items =>
    obtain ⟨items, hread, hdone⟩ := bind_eq_ok hok
    cases hdone
    exact .of_fields htext (hcontent.records items hread) hkeys
  | keys =>
    obtain ⟨keys, hread, hdone⟩ := bind_eq_ok hok
    cases hdone
    exact .of_fields htext hitems (hcontent.records keys hread)

/-- A key and its content either change nothing or fill a field. -/
theorem readFields_step {sofar result : PartialRecord} {key content : Item} {rest : List Item}
    (hok : readFields sofar (key :: content :: rest) = .ok result) :
    readFields sofar rest = .ok result ∨
      ∃ field record, field.read sofar.record content = .ok record ∧
        readFields ⟨record, field :: sofar.seen⟩ rest = .ok result := by
  rw [readFields] at hok
  obtain ⟨selected, -, hok'⟩ := bind_eq_ok hok
  cases selected with
  | none => exact .inl hok'
  | some field =>
    simp only at hok'
    split at hok'
    · exact .inl hok'
    · refine .inr ⟨field, ?_⟩
      cases field
      all_goals
        obtain ⟨read, hread, hrest⟩ := bind_eq_ok hok'
        exact ⟨_, by rw [Field.read, hread]; rfl, hrest⟩

/-- The fields of a map, two entries at a time. -/
theorem admitted_of_readFields {size levels : Nat} : ∀ (entries : List Item)
    (sofar : PartialRecord) {result : PartialRecord},
    (∀ item ∈ entries, item.Filling size levels) → sofar.record.Admitted size (levels + 1) →
      readFields sofar entries = .ok result → result.record.Admitted size (levels + 1)
  | [], sofar, result, _, hsofar, hok => by
    simp only [readFields] at hok
    cases hok
    exact hsofar
  | [key], sofar, result, _, hsofar, hok => by
    simp only [readFields] at hok
    cases hok
    exact hsofar
  | key :: content :: rest, sofar, result, hentries, hsofar, hok => by
    have hrest : ∀ item ∈ rest, item.Filling size levels :=
      fun item hitem => hentries item (by simp [hitem])
    have hcontent : content.Filling size levels := hentries content (by simp)
    rcases readFields_step hok with hskip | ⟨field, record, hread, hmore⟩
    · exact admitted_of_readFields rest sofar hrest hsofar hskip
    · exact admitted_of_readFields rest _ hrest (field.admitted_of_read hsofar hcontent hread) hmore

theorem mem_of_ofItems {items : List Item} {records : List Record}
    (hok : ofItems items = .ok records) :
    records.length = items.length ∧ ∀ r ∈ records, ∃ item ∈ items, Record.ofItem item = .ok r := by
  induction items generalizing records with
  | nil =>
    cases hok
    simp
  | cons item rest ih =>
    obtain ⟨first, hfirst, hok'⟩ := bind_eq_ok hok
    obtain ⟨more, hmore, hdone⟩ := bind_eq_ok hok'
    cases hdone
    obtain ⟨hlength, hmem⟩ := ih hmore
    refine ⟨by simp [hlength], ?_⟩
    intro r hr
    rcases List.mem_cons.mp hr with rfl | hr'
    · exact ⟨item, List.mem_cons_self, hfirst⟩
    · obtain ⟨found, hfound, hread⟩ := hmem r hr'
      exact ⟨found, List.mem_cons_of_mem _ hfound, hread⟩

/-- An item that is neither a text nor a container fills a field with nothing, if at all. -/
theorem Item.filling_of_leaf {size levels : Nat} {item : Item}
    (hrecord : Record.ofItem item = if isNull item then .ok .empty else refuse item)
    (hrecords : readRecords item = if isNull item then .ok [] else refuse item)
    (htext : readText item = if isNull item then .ok [] else refuse item) :
    item.Filling size levels where
  record r hok := by
    rw [hrecord] at hok
    rw [eq_of_null hok]
    exact .null
  records rs hok := by
    rw [hrecords] at hok
    simp [eq_of_null hok]
  text s hok := by
    rw [htext] at hok
    simp [eq_of_null hok, Utf8.isValid, Utf8.codePoints?, Utf8.pieces]

/-- A tag that is let through hides nothing from the reader of a text. -/
theorem readText_tag {number : Nat} {content : Item} {s : Bytes}
    (hok : readText (.tag number content) = .ok s) : readText content = .ok s := by
  unfold readText at hok ⊢
  rw [untagged.eq_def] at hok
  simp only at hok
  split at hok
  · cases hok
  · split at hok
    · split at hok
      · cases hok
      · cases hok
    · split at hok
      · cases hok
      · cases hok
    · exact hok

/-- **What an admitted item gives** to each kind of field. -/
theorem Item.Admitted.filling {size levels : Nat} {item : Item}
    (ha : item.Admitted size levels) : item.Filling size levels := by
  induction ha with
  | unsigned n => exact Item.filling_of_leaf rfl rfl rfl
  | negative n => exact Item.filling_of_leaf rfl rfl rfl
  | bytes chunks => exact Item.filling_of_leaf rfl rfl rfl
  | simple n => exact Item.filling_of_leaf rfl rfl rfl
  | float x => exact Item.filling_of_leaf rfl rfl rfl
  | @text levels chunks hsize =>
    have hnone : ∀ {α : Type} (a : α), refuse (.text chunks) ≠ .ok a := refuse_ne_ok _
    refine ⟨fun r hok => absurd hok (hnone r), fun rs hok => absurd hok (hnone rs), ?_⟩
    intro s hok
    have hjoin : joinText chunks = .ok s := hok
    unfold joinText at hjoin
    split at hjoin
    · next hall =>
      cases hjoin
      exact ⟨Utf8.isValid_flatten hall, hsize⟩
    · cases hjoin
  | @array levels items hcount hitems ih =>
    refine ⟨fun r hok => (by cases hok), ?_, fun s hok => (by cases hok)⟩
    intro rs hok
    rw [readRecords] at hok
    obtain ⟨hlength, hmem⟩ := mem_of_ofItems hok
    refine ⟨by omega, fun r hr => ?_⟩
    obtain ⟨item, hitem, hread⟩ := hmem r hr
    exact ⟨by omega, (ih item hitem).record r hread⟩
  | @map levels entries hentries ih =>
    refine ⟨?_, fun rs hok => (by cases hok), fun s hok => (by cases hok)⟩
    intro r hok
    rw [Record.ofItem] at hok
    obtain ⟨result, hread, hdone⟩ := bind_eq_ok hok
    cases hdone
    exact admitted_of_readFields entries _ ih .null hread
  | @tag levels number content hcontent ih =>
    refine ⟨fun r hok => ih.record r ?_, fun rs hok => ih.records rs ?_,
      fun s hok => ih.text s (readText_tag hok)⟩
    · rw [Record.ofItem] at hok
      split at hok
      · cases hok
      · split at hok
        · cases hok
        · exact hok
    · rw [readRecords] at hok
      split at hok
      · cases hok
      · split at hok
        · cases hok
        · exact hok

end Codec

end ValueRuntime
