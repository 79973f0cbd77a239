import ValueRuntime.Proofs.Codec.Data

/-! # One encoded form for each tree

    Two data have the same encoded form exactly when they have the same tree. Decoding cannot
    show this, since the decoder refuses some encoded forms. It is the format that keeps trees
    apart, in three layers:

    * Items are self-delimiting: where an item ends can be told from its own bytes. So the
      bytes of an item, whatever follows them, are the bytes of no other item.
    * The fields that the item of a record has are those that are not empty, each under a key
      of its own.
    * The record of a datum has its kind and all that the kind has contents of.
-/

namespace ValueRuntime

namespace Codec

/-! ## Items -/

namespace Item

/-- The major type in the head of an item. -/
def major : Item → Nat
  | .unsigned _ => 0
  | .negative _ => 1
  | .bytes _ => 2
  | .text _ => 3
  | .array _ => 4
  | .map _ => 5
  | .tag _ _ => 6
  | .simple _ => 7
  | .float _ => 7

/-- The bytes of an item after its head. -/
def body : Item → Bytes
  | .bytes chunks => chunks.flatten
  | .text chunks => chunks.flatten
  | .array items => writeAll items
  | .map entries => writeAll entries
  | .tag _ content => content.write
  | _ => []

/-- What the rest of a head says about its item: a number, a length or a count, or the whole
    item where there is nothing else to it. -/
def Announces (info n : Nat) : Item → Prop
  | .unsigned m => m = n
  | .negative m => m = n
  | .bytes chunks => chunks.flatten.length = n
  | .text chunks => chunks.flatten.length = n
  | .array items => items.length = n
  | .map entries => entries.length = 2 * n
  | .tag number _ => number = n
  | .simple m => simpleOrFloat info n = .simple m
  | .float x => simpleOrFloat info n = .float x

/-- **The head of an item** is read from its bytes, whatever follows them. -/
theorem Plain.readHead_write {levels : Nat} {item : Item} (hp : item.Plain levels)
    (rest : Bytes) :
    ∃ info n, readHead (item.write ++ rest)
      = .ok (⟨item.major, info, .definite n⟩, item.body ++ rest) ∧ item.Announces info n := by
  have hlimit : lengthLimit < argumentLimit := by decide
  have hhead : ∀ (major n : Nat) (body : Bytes), major < 7 → n < argumentLimit →
      readHead (writeHead major n ++ body ++ rest)
        = .ok (⟨major, infoFor n, .definite n⟩, body ++ rest) := by
    intro major n body hmajor hn
    rw [List.append_assoc, readHead_writeHead (by omega) hn (.inl hmajor)]
  cases hp with
  | @unsigned _ n hn =>
    have hread := hhead 0 n [] (by decide) hn
    rw [List.append_nil] at hread
    exact ⟨_, n, hread, rfl⟩
  | @negative _ n hn =>
    have hread := hhead 1 n [] (by decide) hn
    rw [List.append_nil] at hread
    exact ⟨_, n, hread, rfl⟩
  | @bytes _ s hs =>
    have hlength : [s].flatten.length < argumentLimit := by
      rw [List.flatten_singleton]
      omega
    exact ⟨_, _, hhead 2 _ _ (by decide) hlength, rfl⟩
  | @text _ s hs =>
    have hlength : [s].flatten.length < argumentLimit := by
      rw [List.flatten_singleton]
      omega
    exact ⟨_, _, hhead 3 _ _ (by decide) hlength, rfl⟩
  | array hlength _ => exact ⟨_, _, hhead 4 _ _ (by decide) (by omega), rfl⟩
  | @map _ entries heven hlength _ =>
    have hpairs : entries.length = 2 * (entries.length / 2) := by omega
    exact ⟨_, _, hhead 5 _ _ (by decide) (by omega), hpairs⟩
  | @simple _ n hn =>
    have hsmall : n < argumentLimit := Nat.lt_trans hn (by decide)
    exact ⟨_, n, readHead_writeHead (by decide) hsmall (.inr hn) rest, simpleOrFloat_infoFor hn⟩
  | float x =>
    obtain ⟨info, n, hread, hfloat⟩ := readHead_writeFloat x rest
    exact ⟨info, n, hread, hfloat⟩

end Item

/-- Items that are told from each other one by one are told from each other in a row. -/
theorem eq_of_writeAll {items items' : List Item} (hlength : items.length = items'.length)
    (hitems : ∀ item ∈ items, ∀ item' ∈ items', ∀ rest rest' : Bytes,
      item.write ++ rest = item'.write ++ rest' → item = item' ∧ rest = rest')
    {rest rest' : Bytes} (hbytes : writeAll items ++ rest = writeAll items' ++ rest') :
    items = items' ∧ rest = rest' := by
  induction items generalizing items' with
  | nil =>
    obtain rfl : items' = [] := List.length_eq_zero_iff.mp hlength.symm
    exact ⟨rfl, hbytes⟩
  | cons first more ih =>
    cases items' with
    | nil => cases hlength
    | cons first' more' =>
      rw [writeAll, writeAll, List.append_assoc, List.append_assoc] at hbytes
      obtain ⟨rfl, hrest⟩ := hitems first List.mem_cons_self first' List.mem_cons_self _ _ hbytes
      obtain ⟨rfl, hend⟩ := ih (Nat.succ.inj hlength) (fun item hitem item' hitem' =>
        hitems item (List.mem_cons_of_mem _ hitem) item' (List.mem_cons_of_mem _ hitem')) hrest
      exact ⟨rfl, hend⟩

section

variable {levels levels' : Nat} {item item' : Item} {rest rest' : Bytes}

/-- Items at the beginning of the same bytes have the same head, and what follows it is the
    same. -/
theorem Item.Plain.same_head (hp : item.Plain levels) (hp' : item'.Plain levels')
    (hbytes : item.write ++ rest = item'.write ++ rest') :
    item.major = item'.major ∧ item.body ++ rest = item'.body ++ rest' ∧
      ∃ info n, item.Announces info n ∧ item'.Announces info n := by
  -- The same bytes are read twice, and reading gives one head.
  obtain ⟨info, n, hread, hsays⟩ := hp.readHead_write rest
  obtain ⟨info', n', hread', hsays'⟩ := hp'.readHead_write rest'
  rw [hbytes, hread'] at hread
  simp only [Except.ok.injEq, Prod.mk.injEq, Head.mk.injEq, Argument.definite.injEq] at hread
  obtain ⟨⟨hmajor, rfl, rfl⟩, hrest⟩ := hread
  exact ⟨hmajor.symm, hrest.symm, info', n', hsays, hsays'⟩

/-- A string of known length ends at a known place. -/
theorem eq_of_flatten {s s' : Bytes} (hlength : [s].flatten.length = [s'].flatten.length)
    (hbytes : [s].flatten ++ rest = [s'].flatten ++ rest') : s = s' ∧ rest = rest' := by
  obtain ⟨hsame, hrest⟩ := List.append_inj hbytes hlength
  rw [List.flatten_singleton, List.flatten_singleton] at hsame
  exact ⟨hsame, hrest⟩

/-- **Items are self-delimiting:** bytes begin with the bytes of one item only. -/
theorem Item.Plain.eq_of_write (hp : item.Plain levels) (hp' : item'.Plain levels')
    (hbytes : item.write ++ rest = item'.write ++ rest') : item = item' ∧ rest = rest' := by
  -- Induction on the first item. The head leaves one major type for the second item, and says
  -- how long it is; what is left to compare are the items inside.
  obtain ⟨hmajor, hbody, info, n, hsays, hsays'⟩ := hp.same_head hp' hbytes
  clear hbytes
  induction hp generalizing levels' item' rest rest' info n with
  | unsigned _ =>
    cases hp' with
    | unsigned _ =>
      cases hsays
      cases hsays'
      exact ⟨rfl, hbody⟩
    | _ => cases hmajor
  | negative _ =>
    cases hp' with
    | negative _ =>
      cases hsays
      cases hsays'
      exact ⟨rfl, hbody⟩
    | _ => cases hmajor
  | bytes _ =>
    cases hp' with
    | bytes _ =>
      obtain ⟨rfl, hrest⟩ := eq_of_flatten (Eq.trans hsays (Eq.symm hsays')) hbody
      exact ⟨rfl, hrest⟩
    | _ => cases hmajor
  | text _ =>
    cases hp' with
    | text _ =>
      obtain ⟨rfl, hrest⟩ := eq_of_flatten (Eq.trans hsays (Eq.symm hsays')) hbody
      exact ⟨rfl, hrest⟩
    | _ => cases hmajor
  | array _ hitems ih =>
    cases hp' with
    | array _ hitems' =>
      obtain ⟨rfl, hrest⟩ := eq_of_writeAll (Eq.trans hsays (Eq.symm hsays'))
        (fun item hitem item' hitem' rest rest' hbytes => by
          obtain ⟨hmajor, hbody, info, n, hsays, hsays'⟩ :=
            (hitems item hitem).same_head (hitems' item' hitem') hbytes
          exact ih item hitem (hitems' item' hitem') hmajor hbody info n hsays hsays') hbody
      exact ⟨rfl, hrest⟩
    | _ => cases hmajor
  | map _ _ hentries ih =>
    cases hp' with
    | map _ _ hentries' =>
      obtain ⟨rfl, hrest⟩ := eq_of_writeAll (Eq.trans hsays (Eq.symm hsays'))
        (fun item hitem item' hitem' rest rest' hbytes => by
          obtain ⟨hmajor, hbody, info, n, hsays, hsays'⟩ :=
            (hentries item hitem).same_head (hentries' item' hitem') hbytes
          exact ih item hitem (hentries' item' hitem') hmajor hbody info n hsays hsays') hbody
      exact ⟨rfl, hrest⟩
    | _ => cases hmajor
  | simple _ =>
    cases hp' with
    | simple _ =>
      cases Eq.trans (Eq.symm hsays) hsays'
      exact ⟨rfl, hbody⟩
    | float x => cases Eq.trans (Eq.symm hsays) hsays'
    | _ => cases hmajor
  | float x =>
    cases hp' with
    | simple _ => cases Eq.trans (Eq.symm hsays) hsays'
    | float _ =>
      cases Eq.trans (Eq.symm hsays) hsays'
      exact ⟨rfl, hbody⟩
    | _ => cases hmajor

end

/-! ## Records -/

theorem Field.ofNumber?_code (field : Field) : Field.ofNumber? field.code = some field := by
  cases field <;> rfl

/-- Each field has a key of its own. -/
theorem Field.eq_of_entries {fields fields' : List (Field × Item)}
    (hentries : Field.entries fields = Field.entries fields') : fields = fields' := by
  induction fields generalizing fields' with
  | nil =>
    cases fields' with
    | nil => rfl
    | cons entry rest => cases hentries
  | cons entry rest ih =>
    cases fields' with
    | nil => cases hentries
    | cons entry' rest' =>
      obtain ⟨field, content⟩ := entry
      obtain ⟨field', content'⟩ := entry'
      simp only [Field.entries, List.cons.injEq, Item.unsigned.injEq] at hentries
      obtain ⟨hcode, rfl, hrest⟩ := hentries
      have hfield : some field = some field' := by
        rw [← field.ofNumber?_code, hcode, field'.ofNumber?_code]
      rw [Option.some.inj hfield, ih hrest]

namespace Record

/-- **What a field of a record is found to hold:** its content, or nothing when it is empty. -/
theorem lookup_fields (r : Record) :
    r.fields.lookup .kind = some (.unsigned r.kind) ∧
      r.fields.lookup .flag = (if r.flag then some (.simple 21) else none) ∧
      r.fields.lookup .number = some (.float r.number) ∧
      r.fields.lookup .text = (if r.text.isEmpty then none else some (.text [r.text])) ∧
      r.fields.lookup .items = (if r.items.isEmpty then none else some (.array (toItems r.items))) ∧
      r.fields.lookup .keys
        = (if r.keys.isEmpty then none else some (.array (toItems r.keys))) := by
  obtain ⟨kind, flag, number, text, items, keys⟩ := r
  cases flag <;> cases text <;> cases items <;> cases keys <;> exact ⟨rfl, rfl, rfl, rfl, rfl, rfl⟩

theorem eq_of_toItems {records records' : List Record}
    (hrecords : ∀ r ∈ records, ∀ r' : Record, r.toItem = r'.toItem → r = r')
    (hitems : toItems records = toItems records') : records = records' := by
  induction records generalizing records' with
  | nil =>
    cases records' with
    | nil => rfl
    | cons r' rest' => cases hitems
  | cons r rest ih =>
    cases records' with
    | nil => cases hitems
    | cons r' rest' =>
      rw [toItems, toItems, List.cons.injEq] at hitems
      rw [hrecords r List.mem_cons_self r' hitems.1,
        ih (fun r hr => hrecords r (List.mem_cons_of_mem _ hr)) hitems.2]

/-- Contents that are left out when they are empty are told from each other, if they are where
    they are written. -/
theorem eq_of_optional {α β : Type} (content : List α → β) {xs ys : List α}
    (hcontent : content xs = content ys → xs = ys)
    (hfound : (if xs.isEmpty then none else some (content xs))
      = if ys.isEmpty then none else some (content ys)) : xs = ys := by
  split at hfound
  · next hxs =>
    split at hfound
    · next hys => rw [List.isEmpty_iff.mp hxs, List.isEmpty_iff.mp hys]
    · cases hfound
  · split at hfound
    · cases hfound
    · exact hcontent (Option.some.inj hfound)

/-- **No two records have the same item.** -/
theorem eq_of_toItem {r r' : Record} (hitem : r.toItem = r'.toItem) : r = r' := by
  induction r using Record.treeInduction generalizing r' with
  | record kind flag number text items keys ihi ihk =>
    obtain ⟨kind', flag', number', text', items', keys'⟩ := r'
    -- The fields are the same, so each is found to hold the same. Kind and number are always
    -- there; a field that is not found is empty in both records.
    have hfields : fields ⟨kind, flag, number, text, items, keys⟩
        = fields ⟨kind', flag', number', text', items', keys'⟩ := by
      rw [toItem_eq, toItem_eq] at hitem
      exact Field.eq_of_entries (Item.map.inj hitem)
    have hfound := lookup_fields ⟨kind, flag, number, text, items, keys⟩
    rw [hfields] at hfound
    obtain ⟨hkind, hflag, hnumber, htext, hitems, hkeys⟩ := hfound
    obtain ⟨hkind', hflag', hnumber', htext', hitems', hkeys'⟩ :=
      lookup_fields ⟨kind', flag', number', text', items', keys'⟩
    have hflags : flag = flag' := by
      have hsame := hflag.symm.trans hflag'
      cases flag <;> cases flag' <;> first | rfl | cases hsame
    have htexts : text = text' := eq_of_optional (fun s => Item.text [s])
      (fun hsame => (List.cons.inj (Item.text.inj hsame)).1) (htext.symm.trans htext')
    have hparts : items = items' := eq_of_optional (fun records => Item.array (toItems records))
      (fun harray => eq_of_toItems (fun r hr r' => ihi r hr) (Item.array.inj harray))
      (hitems.symm.trans hitems')
    have hkeyParts : keys = keys' := eq_of_optional (fun records => Item.array (toItems records))
      (fun harray => eq_of_toItems (fun r hr r' => ihk r hr) (Item.array.inj harray))
      (hkeys.symm.trans hkeys')
    cases hkind.symm.trans hkind'
    cases hnumber.symm.trans hnumber'
    rw [hflags, htexts, hparts, hkeyParts]

end Record

/-! ## Data -/

theorem recordsOf_trees {ds : List Datum} (hds : ∀ d ∈ ds, recordOf d.tree = recordOf d) :
    recordsOf (Datum.trees ds) = recordsOf ds := by
  rw [recordsOf_eq_map, recordsOf_eq_map, Datum.trees_eq_map, List.map_map]
  exact List.map_congr_left hds

/-- **The record of a datum** is settled by its tree. -/
theorem recordOf_tree (d : Datum) : recordOf d.tree = recordOf d := by
  induction d using Datum.treeInduction with
  | list capacity items ih => rw [Datum.tree, recordOf, recordOf, recordsOf_trees ih]
  | object capacity keys values ihk ihv =>
    rw [Datum.tree, recordOf, recordOf, recordsOf_trees ihk, recordsOf_trees ihv]
  | _ => rfl

theorem kind_recordOf (d : Datum) : (recordOf d).kind = d.kind.code := by
  cases d <;> simp [recordOf, kindRecord, Datum.kind]

theorem kind_code_eq {a b : Datum} (hrecord : recordOf a = recordOf b) :
    a.kind.code = b.kind.code := by
  rw [← kind_recordOf, ← kind_recordOf, hrecord]

theorem trees_eq_of_recordsOf {ds ds' : List Datum}
    (hds : ∀ d ∈ ds, ∀ d' ∈ ds', recordOf d = recordOf d' → d.tree = d'.tree)
    (hrecords : recordsOf ds = recordsOf ds') : Datum.trees ds = Datum.trees ds' := by
  induction ds generalizing ds' with
  | nil =>
    cases ds' with
    | nil => rfl
    | cons d' rest' => cases hrecords
  | cons d rest ih =>
    cases ds' with
    | nil => cases hrecords
    | cons d' rest' =>
      rw [recordsOf, recordsOf, List.cons.injEq] at hrecords
      rw [Datum.trees, Datum.trees, hds d List.mem_cons_self d' List.mem_cons_self hrecords.1,
        ih (fun d hd d' hd' => hds d (List.mem_cons_of_mem _ hd) d' (List.mem_cons_of_mem _ hd'))
          hrecords.2]

/-- **The tree of a datum** is settled by its record, unless there is a function in it or an
    object without contents. -/
theorem tree_eq_of_recordOf {a b : Datum} (ha : a.isEncodable = true) (hb : b.isEncodable = true)
    (hrecord : recordOf a = recordOf b) : a.tree = b.tree := by
  -- The kind is in the record, so each case is about two data of one kind. Only objects share
  -- theirs with something else, and that is not encoded.
  have hkind := kind_code_eq hrecord
  induction a using Datum.treeInduction generalizing b with
  | nil =>
    cases b with
    | nil => rfl
    | _ => cases hkind
  | boolean x =>
    cases b with
    | boolean y => exact congrArg (Datum.boolean ·.flag) hrecord
    | _ => cases hkind
  | number x =>
    cases b with
    | number y => exact congrArg (Datum.number ·.number) hrecord
    | _ => cases hkind
  | string s =>
    cases b with
    | string t => exact congrArg (Datum.string ·.text) hrecord
    | _ => cases hkind
  | list capacity items ih =>
    cases b with
    | list capacity' items' =>
      obtain ⟨-, hitems⟩ := (Datum.every_list_iff _ _ _).mp ha
      obtain ⟨-, hitems'⟩ := (Datum.every_list_iff _ _ _).mp hb
      have htrees := trees_eq_of_recordsOf (fun d hd d' hd' hsame =>
        ih d hd (hitems d hd) (hitems' d' hd') hsame (kind_code_eq hsame))
        (congrArg Record.items hrecord)
      rw [Datum.tree, Datum.tree, htrees]
    | _ => cases hkind
  | object capacity keys values ihk ihv =>
    cases b with
    | object capacity' keys' values' =>
      obtain ⟨-, hkeys, hvalues⟩ := (Datum.every_object_iff _ _ _ _).mp ha
      obtain ⟨-, hkeys', hvalues'⟩ := (Datum.every_object_iff _ _ _ _).mp hb
      have hkeyTrees := trees_eq_of_recordsOf (fun d hd d' hd' hsame =>
        ihk d hd (hkeys d hd) (hkeys' d' hd') hsame (kind_code_eq hsame))
        (congrArg Record.keys hrecord)
      have hvalueTrees := trees_eq_of_recordsOf (fun d hd d' hd' hsame =>
        ihv d hd (hvalues d hd) (hvalues' d' hd') hsame (kind_code_eq hsame))
        (congrArg Record.items hrecord)
      rw [Datum.tree, Datum.tree, hkeyTrees, hvalueTrees]
    | hollow => cases hb
    | _ => cases hkind
  | hollow => cases ha
  | function f => cases ha

end Codec

/-! ## Encoded forms -/

open Codec

/-- **Encoded forms are canonical.** Two data that are encoded have the same encoded form
    exactly when they have the same tree: the same kinds, booleans, numbers and strings, items
    in the same order, and keys and values in the same order. The room of lists and objects is
    not encoded.

    Each length is one that a machine can count; strings may hold any bytes, and lists and
    objects may be longer than what the decoder reads. -/
theorem encoded_forms_equal_iff {a b : Datum} (hab : a.isBalanced = true)
    (hbb : b.isBalanced = true) (has : a.isSized = true) (hbs : b.isSized = true) {x y : Bytes}
    (hx : encode a = .ok x) (hy : encode b = .ok y) : x = y ↔ a.tree = b.tree := by
  obtain ⟨⟨hae, had⟩, rfl⟩ := (encode_eq_ok_iff hab x).mp hx
  obtain ⟨⟨hbe, hbd⟩, rfl⟩ := (encode_eq_ok_iff hbb y).mp hy
  constructor
  · intro hbytes
    have hitems : (recordOf a).toItem = (recordOf b).toItem :=
      ((plain_recordOf hab has had).toItem.eq_of_write (plain_recordOf hbb hbs hbd).toItem
        (congrArg (· ++ []) hbytes)).1
    exact tree_eq_of_recordOf hae hbe (Record.eq_of_toItem hitems)
  · intro htree
    rw [← recordOf_tree a, ← recordOf_tree b, htree]

/-- The encoded form of an object does not show its room, but it does show the order of its
    pairs. -/
theorem pair_order_shown_in_encoded_form :
    let pairs room := Datum.object room [.string [0xff], .number .nan] [.nil, .list room []]
    let swapped := Datum.object 2 [.number .nan, .string [0xff]] [.list 0 [], .nil]
    ∃ x y z, encode (pairs 8) = .ok x ∧ encode (pairs 2) = .ok y ∧ encode swapped = .ok z ∧
      x = y ∧ x ≠ z := by
  intro pairs swapped
  obtain ⟨x, hx⟩ : ∃ x, encode (pairs 8) = .ok x := ⟨_, rfl⟩
  obtain ⟨y, hy⟩ : ∃ y, encode (pairs 2) = .ok y := ⟨_, rfl⟩
  obtain ⟨z, hz⟩ : ∃ z, encode swapped = .ok z := ⟨_, rfl⟩
  have hroom := encoded_forms_equal_iff rfl rfl (by decide) (by decide) hx hy
  have horder := encoded_forms_equal_iff rfl rfl (by decide) (by decide) hx hz
  refine ⟨x, y, z, hx, hy, hz, hroom.mpr rfl, fun hbytes => ?_⟩
  have htree := horder.mp hbytes
  cases htree

end ValueRuntime
