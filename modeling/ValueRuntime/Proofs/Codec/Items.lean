import ValueRuntime.Proofs.Codec.Heads

/-! # Items read back

    An item without tags that was written in one piece is read back from its bytes, whatever
    follows them. The one thing that may be in the way is the limit on counts: when an array
    or a map in the item has too many entries, reading stops there.
-/

namespace ValueRuntime.Codec

/-! ## Items that can be read back -/

/-- **A plain item** with at most `levels` levels of nesting: it has no tags, its strings are
    in one piece, its maps have a value for each key, and all its numbers and lengths have a
    head of their own. -/
inductive Item.Plain : (levels : Nat) → Item → Prop where
  | unsigned {levels n : Nat} (hn : n < argumentLimit) : Plain levels (.unsigned n)
  | negative {levels n : Nat} (hn : n < argumentLimit) : Plain levels (.negative n)
  | bytes {levels : Nat} {s : Bytes} (hs : s.length < lengthLimit) : Plain levels (.bytes [s])
  | text {levels : Nat} {s : Bytes} (hs : s.length < lengthLimit) : Plain levels (.text [s])
  | array {levels : Nat} {items : List Item} (hlength : items.length < lengthLimit)
      (hitems : ∀ item ∈ items, Plain levels item) : Plain (levels + 1) (.array items)
  | map {levels : Nat} {entries : List Item} (heven : entries.length % 2 = 0)
      (hlength : entries.length / 2 < lengthLimit)
      (hentries : ∀ item ∈ entries, Plain levels item) : Plain (levels + 1) (.map entries)
  | simple {levels n : Nat} (hn : n < 24) : Plain levels (.simple n)
  | float {levels : Nat} (x : Number) : Plain levels (.float x)

theorem Item.Plain.mono {levels levels' : Nat} {item : Item} (hp : item.Plain levels)
    (hle : levels ≤ levels') : item.Plain levels' := by
  induction hp generalizing levels' with
  | unsigned hn => exact .unsigned hn
  | negative hn => exact .negative hn
  | bytes hs => exact .bytes hs
  | text hs => exact .text hs
  | array hlength hitems ih =>
    obtain ⟨more, rfl⟩ : ∃ more, levels' = more + 1 := ⟨levels' - 1, by omega⟩
    exact .array hlength fun item hitem => ih item hitem (by omega)
  | map heven hlength hentries ih =>
    obtain ⟨more, rfl⟩ : ∃ more, levels' = more + 1 := ⟨levels' - 1, by omega⟩
    exact .map heven hlength fun item hitem => ih item hitem (by omega)
  | simple hn => exact .simple hn
  | float x => exact .float x

mutual

/-- Whether no array and no map in an item has more entries than are read. -/
def Item.fits : Item → Bool
  | .array items => decide (items.length ≤ maxCount) && allFit items
  | .map entries => decide (entries.length / 2 ≤ maxCount) && allFit entries
  | .tag _ content => content.fits
  | _ => true

/-- Whether no array and no map in several items has more entries than are read. -/
def allFit : List Item → Bool
  | [] => true
  | item :: rest => item.fits && allFit rest

end

theorem Item.write_ne_nil (item : Item) : item.write ≠ [] := by
  have hhead : ∀ (major n : Nat) (rest : Bytes), writeHead major n ++ rest ≠ [] :=
    fun major n rest hnil => writeHead_ne_nil major n (List.append_eq_nil_iff.mp hnil).1
  cases item with
  | unsigned n => exact writeHead_ne_nil 0 n
  | negative n => exact writeHead_ne_nil 1 n
  | bytes chunks => exact hhead 2 _ _
  | text chunks => exact hhead 3 _ _
  | array items => exact hhead 4 _ _
  | map entries => exact hhead 5 _ _
  | tag number content => exact hhead 6 _ _
  | simple n => exact writeHead_ne_nil 7 n
  | float x =>
    simp only [Item.write, writeFloat]
    repeat' split
    all_goals exact List.cons_ne_nil _ _

/-- Fuel that is enough for an item is not zero. -/
theorem exists_fuel {item : Item} {fuel : Nat} (hfuel : item.write.length ≤ fuel) :
    ∃ less, fuel = less + 1 := by
  have hpos : 0 < item.write.length := List.length_pos_iff.mpr item.write_ne_nil
  exact ⟨fuel - 1, by omega⟩

theorem length_write_le {item : Item} {items : List Item} (hitem : item ∈ items) :
    item.write.length ≤ (writeAll items).length := by
  induction items with
  | nil => cases hitem
  | cons first rest ih =>
    rw [writeAll, List.length_append]
    rcases List.mem_cons.mp hitem with rfl | hrest
    · exact Nat.le_add_right _ _
    · exact Nat.le_add_left_of_le (ih hrest)

/-- The fuel after a head is enough for each item that follows it. -/
theorem fuel_of_mem {item : Item} {items : List Item} {major n fuel : Nat} (hitem : item ∈ items)
    (hfuel : (writeHead major n ++ writeAll items).length ≤ fuel + 1) :
    item.write.length ≤ fuel := by
  have hle := length_write_le hitem
  have hpos : 0 < (writeHead major n).length := List.length_pos_iff.mpr (writeHead_ne_nil major n)
  rw [List.length_append] at hfuel
  omega

/-! ## Reading -/

/-- What reading an item from its own bytes gives. -/
def Item.outcome (item : Item) (rest : Bytes) : Except Malformed (Item × Bytes) :=
  if item.fits then .ok (item, rest) else .error .tooManyItems

/-- A reader that reads each of several items reads them all in turn. -/
theorem readMany_writeAll {read : Reader Item} {items : List Item}
    (hread : ∀ item ∈ items, ∀ rest, read (item.write ++ rest) = item.outcome rest)
    (rest : Bytes) :
    readMany read items.length (writeAll items ++ rest) =
      if allFit items then .ok (items, rest) else .error .tooManyItems := by
  induction items with
  | nil => rfl
  | cons first more ih =>
    have hfirst := hread first List.mem_cons_self (writeAll more ++ rest)
    have hmore := ih fun item hitem => hread item (List.mem_cons_of_mem _ hitem)
    rw [List.length_cons, readMany, writeAll, List.append_assoc, hfirst, Item.outcome, allFit]
    cases first.fits with
    | false => rfl
    | true =>
      simp only [if_true, ok_bind, hmore, Bool.true_and]
      cases allFit more <;> rfl

/-- The contents of an array or a map are read back after their head. -/
theorem readContents_writeAll {read : Reader Item} {head : Head} {items : List Item}
    {count : Nat} (hargument : head.argument = .definite count) (hlimit : count < lengthLimit)
    (hcount : (if head.major == 5 then 2 * count else count) = items.length)
    (hread : ∀ item ∈ items, ∀ rest, read (item.write ++ rest) = item.outcome rest)
    (rest : Bytes) :
    readContents read head (writeAll items ++ rest) =
      if decide (count ≤ maxCount) && allFit items then
        .ok (if head.major == 5 then .map items else .array items, rest)
      else .error .tooManyItems := by
  have hmany := readMany_writeAll hread rest
  simp only [readContents, hargument, hcount, hmany, checkCount]
  -- Of the two limits, a count below `lengthLimit` can only break the smaller one.
  rw [if_neg (by omega)]
  by_cases hfits : count ≤ maxCount
  · rw [if_neg (by omega), decide_eq_true hfits, Bool.true_and]
    cases allFit items <;> rfl
  · rw [if_pos (by omega), decide_eq_false hfits]
    rfl

theorem readString_append {s : Bytes} (hs : s.length < lengthLimit) (rest : Bytes) :
    readString s.length (s ++ rest) = .ok (s, rest) := by
  unfold readString
  rw [if_neg (by omega), take_append rfl]

/-- Arrays and maps open a level. -/
theorem readItem_container {fuel levels : Nat} {input rest : Bytes} {head : Head}
    (hhead : readHead input = .ok (head, rest)) (hmajor : head.major = 4 ∨ head.major = 5) :
    readItem (fuel + 1) (levels + 1) input = readContents (readItem fuel levels) head rest := by
  obtain ⟨major, info, argument⟩ := head
  rw [readItem, hhead]
  rcases hmajor with rfl | rfl <;> cases argument <;> rfl

/-- **An item is read back** from its bytes. -/
theorem readItem_write {item : Item} {levels : Nat} (hp : item.Plain levels) {fuel : Nat}
    (hfuel : item.write.length ≤ fuel) (rest : Bytes) :
    readItem fuel levels (item.write ++ rest) = item.outcome rest := by
  -- Induction on the nesting: what follows an item inside another is the rest of the outer one.
  induction hp generalizing fuel rest with
  | @unsigned levels n hn =>
    obtain ⟨fuel, rfl⟩ := exists_fuel hfuel
    rw [readItem, Item.write, readHead_writeHead (by decide) hn (.inl (by decide))]
    rfl
  | negative hn =>
    obtain ⟨fuel, rfl⟩ := exists_fuel hfuel
    rw [readItem, Item.write, readHead_writeHead (by decide) hn (.inl (by decide))]
    rfl
  | @bytes levels s hs =>
    obtain ⟨fuel, rfl⟩ := exists_fuel hfuel
    have hlength : s.length < argumentLimit := Nat.lt_trans hs (by decide)
    rw [readItem, Item.write, List.flatten_singleton, List.append_assoc,
      readHead_writeHead (by decide) hlength (.inl (by decide))]
    simp only [ok_bind, readString_append hs]
    rfl
  | @text levels s hs =>
    obtain ⟨fuel, rfl⟩ := exists_fuel hfuel
    have hlength : s.length < argumentLimit := Nat.lt_trans hs (by decide)
    rw [readItem, Item.write, List.flatten_singleton, List.append_assoc,
      readHead_writeHead (by decide) hlength (.inl (by decide))]
    simp only [ok_bind, readString_append hs]
    rfl
  | @array levels items hlength hitems ih =>
    obtain ⟨fuel, rfl⟩ := exists_fuel hfuel
    have hcount : items.length < argumentLimit := Nat.lt_trans hlength (by decide)
    have hread := fun item hitem => ih item hitem (fuel_of_mem hitem hfuel)
    rw [Item.write, List.append_assoc,
      readItem_container (readHead_writeHead (by decide) hcount (.inl (by decide)) _) (.inl rfl),
      readContents_writeAll rfl hlength rfl hread]
    rfl
  | @map levels entries heven hlength hentries ih =>
    obtain ⟨fuel, rfl⟩ := exists_fuel hfuel
    have hcount : entries.length / 2 < argumentLimit := Nat.lt_trans hlength (by decide)
    have hread := fun item hitem => ih item hitem (fuel_of_mem hitem hfuel)
    have hpairs : 2 * (entries.length / 2) = entries.length := by omega
    rw [Item.write, List.append_assoc,
      readItem_container (readHead_writeHead (by decide) hcount (.inl (by decide)) _) (.inr rfl),
      readContents_writeAll rfl hlength _ hread]
    · rfl
    · exact hpairs
  | @simple levels n hn =>
    obtain ⟨fuel, rfl⟩ := exists_fuel hfuel
    have hsmall : n < argumentLimit := Nat.lt_trans hn (by decide)
    rw [readItem, Item.write, readHead_writeHead (by decide) hsmall (.inr hn)]
    show Except.ok (simpleOrFloat (infoFor n) n, rest) = _
    rw [simpleOrFloat_infoFor hn]
    rfl
  | float x =>
    obtain ⟨fuel, rfl⟩ := exists_fuel hfuel
    obtain ⟨info, n, hhead, hfloat⟩ := readHead_writeFloat x rest
    rw [readItem, Item.write, hhead]
    show Except.ok (simpleOrFloat info n, rest) = _
    rw [hfloat]
    rfl

/-- **Reading inverts writing**, within the limit on counts. -/
theorem Item.read_write {item : Item} (hp : item.Plain maxLevels) :
    Item.read item.write = if item.fits then .ok item else .error .tooManyItems := by
  have hread := readItem_write hp (Nat.le_refl _) []
  have hsome : item.write.isEmpty = false := by
    cases hw : item.write with
    | nil => exact absurd hw item.write_ne_nil
    | cons b rest => rfl
  rw [List.append_nil, Item.outcome] at hread
  rw [Item.read, hsome, hread]
  cases item.fits <;> rfl

end ValueRuntime.Codec
