import Mathlib.Data.List.Lex
import ValueRuntime.Proofs.Datum.Equality
import ValueRuntime.Proofs.NameTable

/-! # Order as a relation

    Data of five kinds are ordered, each kind in its own way. All five ways are one: a datum has
    an *order key*, a sequence of integers, and `less` compares the keys of two data of one kind
    lexicographically. Nil, functions and "not a number" have no key and are never ordered.

    Sequences of integers are in linear order, so everything that is to be known of `less` can be
    read off the keys. Data with the same key are exactly those that `less` cannot tell apart, and
    equal data have the same key.
-/

namespace ValueRuntime

/-! ## Order keys -/

namespace Bytes

/-- The bytes of a string as integers. -/
def integers (s : Bytes) : List Int := s.map fun b => (b.toNat : Int)

/-- The order of strings is the order of their bytes as integers. The shorter one of two strings
    comes first if it begins the other. -/
theorem integers_lt_iff (s t : Bytes) : s.integers < t.integers ↔ s < t := by
  induction s generalizing t with
  | nil => cases t <;> simp [integers]
  | cons b rest ih =>
    cases t with
    | nil => simp [integers]
    | cons c more =>
      have hrest := ih more
      unfold integers at hrest ⊢
      rw [List.map_cons, List.map_cons, List.cons_lt_cons_iff, List.cons_lt_cons_iff, hrest,
        UInt8.lt_iff_toNat_lt, ← UInt8.toNat_inj, Int.ofNat_lt, Int.ofNat_inj]

end Bytes

namespace Number

/-- Numbers are ordered by their places. -/
theorem less_iff_place (x y : Number) :
    x.less y = true ↔ ∃ a b, x.place? = some a ∧ y.place? = some b ∧ a < b := by
  unfold less
  cases x.place? with
  | none => simp
  | some a =>
    cases y.place? with
    | none => simp
    | some b => simp

end Number

namespace Datum

/-- **The order key** of a datum, none if it is never ordered. -/
def orderKey? : Datum → Option (List Int)
  | .boolean b => some [if b then 1 else 0]
  | .number x => x.place?.map fun place => [place]
  | .string s => some s.integers
  | .list _ items => some [(items.length : Int)]
  | .object _ keys _ => some [(keys.length : Int)]
  | .hollow => some [0]
  | .nil => none
  | .function _ => none

theorem singleton_lt_iff (i j : Int) : [i] < [j] ↔ i < j := by
  simp [List.cons_lt_cons_iff]

/-- Lists are ordered by their length, and so are objects. -/
theorem less_iff_of_isContainer {a : Datum} (ha : a.isContainer = true) (b : Datum) :
    a.less b = true ↔ a.kind = b.kind ∧ a.length?.getD 0 < b.length?.getD 0 := by
  have hless : a.less b
      = (a.kind == b.kind && decide (a.length?.getD 0 < b.length?.getD 0)) := by
    cases a <;> first | rfl | cases ha
  rw [hless, Bool.and_eq_true, beq_iff_eq, decide_eq_true_iff]

theorem orderKey?_of_isContainer {d : Datum} (hd : d.isContainer = true) :
    d.orderKey? = some [(d.length?.getD 0 : Int)] := by
  cases d <;> first | rfl | cases hd

theorem isContainer_iff (d : Datum) :
    d.isContainer = true ↔ d.kind = .list ∨ d.kind = .object := by
  cases d <;> simp [isContainer, kind]

/-- **Order is the order of keys** within one kind. -/
theorem less_iff_orderKey (a b : Datum) :
    a.less b = true ↔ a.kind = b.kind ∧
      ∃ x y, a.orderKey? = some x ∧ b.orderKey? = some y ∧ x < y := by
  by_cases ha : a.isContainer = true
  · rw [less_iff_of_isContainer ha, orderKey?_of_isContainer ha]
    refine and_congr_right fun hkind => ?_
    have hb : b.isContainer = true := by
      rw [isContainer_iff, ← hkind, ← isContainer_iff]
      exact ha
    rw [orderKey?_of_isContainer hb]
    simp [singleton_lt_iff]
  · cases a with
    | boolean p =>
      cases b with
      | boolean q => cases p <;> cases q <;> simp [less, kind, orderKey?, singleton_lt_iff]
      | _ => simp [less, kind]
    | number x =>
      cases b with
      | number y =>
        have hless : (Datum.number x).less (.number y) = x.less y := rfl
        rw [hless, Number.less_iff_place]
        simp [kind, orderKey?, singleton_lt_iff]
      | _ => simp [less, kind]
    | string s =>
      cases b with
      | string t =>
        have hless : (Datum.string s).less (.string t) = Bytes.less s t := rfl
        rw [hless, Bytes.less_iff]
        simp [kind, orderKey?, Bytes.integers_lt_iff]
      | _ => simp [less, kind]
    | nil => cases b <;> simp [less, kind, orderKey?]
    | function f => cases b <;> simp [less, kind, orderKey?]
    | list capacity items => exact absurd rfl ha
    | object capacity keys values => exact absurd rfl ha
    | hollow => exact absurd rfl ha

/-! ## Order and equality -/

/-- **Equal data have the same key,** and the same kind. -/
theorem orderKey?_of_equal {a b : Datum} (hab : a.equal b = true) :
    a.kind = b.kind ∧ a.orderKey? = b.orderKey? := by
  induction hab using equalInduction with
  | number x y hxy =>
    obtain ⟨place, hx, hy⟩ := (Number.equal_iff x y).mp hxy
    exact ⟨rfl, by rw [orderKey?, orderKey?, hx, hy]⟩
  | list capacity capacity' items items' hequal hitems =>
    exact ⟨rfl, by rw [orderKey?, orderKey?, hitems.length_eq]⟩
  | scalar d hself hd => exact ⟨rfl, rfl⟩

theorem less_irrefl (a : Datum) : a.less a = false := by
  rw [Bool.eq_false_iff, ne_eq, less_iff_orderKey]
  rintro ⟨-, x, y, hx, hy, hlt⟩
  rw [hx] at hy
  cases hy
  exact List.lt_irrefl x hlt

theorem less_trans {a b c : Datum} (hab : a.less b = true) (hbc : b.less c = true) :
    a.less c = true := by
  rw [less_iff_orderKey] at *
  obtain ⟨hkind, x, y, hx, hy, hxy⟩ := hab
  obtain ⟨hkind', y', z, hy', hz, hyz⟩ := hbc
  -- The datum in the middle has one key only.
  rw [hy] at hy'
  cases hy'
  exact ⟨hkind.trans hkind', x, z, hx, hz, List.lt_trans hxy hyz⟩

/-- **Equal data are ordered alike** against everything. -/
theorem less_of_equal {a a' : Datum} (heq : a.equal a' = true) (b : Datum) :
    a.less b = a'.less b ∧ b.less a = b.less a' := by
  obtain ⟨hkind, hkey⟩ := orderKey?_of_equal heq
  constructor
  · rw [Bool.eq_iff_iff, less_iff_orderKey, less_iff_orderKey, hkind, hkey]
  · rw [Bool.eq_iff_iff, less_iff_orderKey, less_iff_orderKey, hkind, hkey]

theorem not_less_of_less {a b : Datum} (hab : a.less b = true) : b.less a = false := by
  rw [Bool.eq_false_iff]
  intro hba
  have hself := less_trans hab hba
  rw [less_irrefl] at hself
  cases hself

theorem not_equal_of_less {a b : Datum} (hab : a.less b = true) : a.equal b = false := by
  rw [Bool.eq_false_iff]
  intro heq
  rw [(less_of_equal heq b).1, less_irrefl] at hab
  cases hab

/-! ## Data of one kind -/

/-- **An orderable datum** of a kind: the kind is neither nil nor function, and the datum is not
    "not a number". -/
structure Orderable (kind : Kind) (d : Datum) : Prop where
  kind_eq : d.kind = kind
  ne_nil : kind ≠ .nil
  ne_function : kind ≠ .function
  ne_nan : d ≠ .number .nan

/-- Data neither of which is less than the other. -/
def Incomparable (a b : Datum) : Prop := a.less b = false ∧ b.less a = false

/-- Data in order: none of them is less than one before it. -/
def InOrder (ds : List Datum) : Prop := ds.Pairwise fun a b => b.less a = false

theorem Orderable.exists_key {kind : Kind} {d : Datum} (hd : Orderable kind d) :
    ∃ x, d.orderKey? = some x := by
  cases d with
  | nil => exact absurd hd.kind_eq.symm hd.ne_nil
  | function f => exact absurd hd.kind_eq.symm hd.ne_function
  | number x =>
    cases x with
    | nan => exact absurd rfl hd.ne_nan
    | signed negative code => exact ⟨_, rfl⟩
  | _ => exact ⟨_, rfl⟩

/-- The order key of an orderable datum. -/
def orderKey (d : Datum) : List Int := d.orderKey?.getD []

variable {kind : Kind} {a b c : Datum} {ds : List Datum}

/-- Orderable data of one kind are ordered by their keys. -/
theorem Orderable.less_iff (ha : Orderable kind a) (hb : Orderable kind b) :
    a.less b = true ↔ a.orderKey < b.orderKey := by
  obtain ⟨x, hx⟩ := ha.exists_key
  obtain ⟨y, hy⟩ := hb.exists_key
  rw [less_iff_orderKey, orderKey, orderKey, hx, hy]
  simp [ha.kind_eq, hb.kind_eq]

/-- **Data that order cannot tell apart have the same key.** -/
theorem Orderable.incomparable_iff (ha : Orderable kind a) (hb : Orderable kind b) :
    Incomparable a b ↔ a.orderKey = b.orderKey := by
  unfold Incomparable
  rw [Bool.eq_false_iff, Bool.eq_false_iff, ne_eq, ne_eq, ha.less_iff hb, hb.less_iff ha]
  constructor
  · rintro ⟨hlow, hhigh⟩
    exact List.le_antisymm hhigh hlow
  · intro hsame
    rw [hsame]
    exact ⟨List.lt_irrefl _, List.lt_irrefl _⟩

/-! ## Sorting -/

theorem InOrder.keys (hds : ∀ d ∈ ds, Orderable kind d) (hsorted : InOrder ds) :
    (ds.map orderKey).Pairwise fun x y => ¬y < x := by
  rw [List.pairwise_map]
  refine hsorted.imp_of_mem fun ha hb hnot hlt => ?_
  rw [← (hds _ hb).less_iff (hds _ ha), hnot] at hlt
  cases hlt

/-- **There is a sorted rearrangement** of orderable data of one kind. -/
theorem exists_inOrder (hds : ∀ d ∈ ds, Orderable kind d) :
    ∃ sorted, sorted.Perm ds ∧ InOrder sorted := by
  let keyLe : Datum → Datum → Bool := fun a b => !decide (b.orderKey < a.orderKey)
  have hkeyLe : ∀ a b, keyLe a b = true ↔ ¬b.orderKey < a.orderKey := by
    intro a b
    simp [keyLe]
  have hperm : (ds.mergeSort keyLe).Perm ds := List.mergeSort_perm ds keyLe
  have hsorted : (ds.mergeSort keyLe).Pairwise fun a b => keyLe a b = true := by
    refine List.pairwise_mergeSort ?_ ?_ ds
    · intro a b c hab hbc
      rw [hkeyLe] at *
      exact List.le_trans hab hbc
    · intro a b
      rw [Bool.or_eq_true, hkeyLe, hkeyLe]
      exact List.le_total _ _
  refine ⟨_, hperm, hsorted.imp_of_mem fun ha hb hle => ?_⟩
  have hless := (hds _ (hperm.mem_iff.mp hb)).less_iff (hds _ (hperm.mem_iff.mp ha))
  rw [Bool.eq_false_iff, ne_eq, hless, ← hkeyLe]
  exact hle

/-- **Sorted rearrangements agree** place by place, up to data that order cannot tell apart. -/
theorem InOrder.forall₂_incomparable {l l' : List Datum} (hl : ∀ d ∈ l, Orderable kind d)
    (hperm : l.Perm l') (hsorted : InOrder l) (hsorted' : InOrder l') :
    List.Forall₂ Incomparable l l' := by
  have hl' : ∀ d ∈ l', Orderable kind d := fun d hd => hl d (hperm.mem_iff.mpr hd)
  have hkeys : l.map orderKey = l'.map orderKey := by
    refine List.Perm.eq_of_pairwise ?_ (hsorted.keys hl) (hsorted'.keys hl') (hperm.map orderKey)
    exact fun x y _ _ hxy hyx => List.le_antisymm hxy hyx
  have hsame : List.Forall₂ (fun a b => a.orderKey = b.orderKey) l l' := by
    rw [← List.forall₂_eq_eq_eq, List.forall₂_map_left_iff, List.forall₂_map_right_iff] at hkeys
    exact hkeys
  have hright : List.Forall₂ (fun b a => Orderable kind b ∧ a.orderKey = b.orderKey) l' l :=
    (List.forall₂_and_left l' l).mpr ⟨hl', hsame.flip⟩
  have hall := (List.forall₂_and_left l l').mpr ⟨hl, hright.flip⟩
  exact hall.imp fun a b hab => (hab.1.incomparable_iff hab.2.1).mpr hab.2.2

end Datum

/-- **Order is a strict weak order that respects equality.** It is irreflexive and transitive, so
    of two data at most one is less than the other, and then they are not equal. Equal data are
    less than the same data, and the same data are less than them. Among the orderable data of
    one kind it is transitive not to be comparable. So such data can be sorted, and two ways to
    sort them differ only in the places of data that are not comparable. -/
theorem less_strict_weak_order :
    (∀ a : Datum, a.less a = false) ∧
      (∀ a b c : Datum, a.less b = true → b.less c = true → a.less c = true) ∧
      (∀ a b : Datum, a.less b = true → b.less a = false ∧ a.equal b = false) ∧
      (∀ a a' b : Datum, a.equal a' = true →
        a.less b = a'.less b ∧ b.less a = b.less a') ∧
      (∀ (kind : Kind) (a b c : Datum), a.Orderable kind → b.Orderable kind → c.Orderable kind →
        a.Incomparable b → b.Incomparable c → a.Incomparable c) ∧
      ∀ (kind : Kind) (ds : List Datum), (∀ d ∈ ds, d.Orderable kind) →
        (∃ sorted, sorted.Perm ds ∧ Datum.InOrder sorted) ∧
          ∀ l l' : List Datum, l.Perm ds → l'.Perm ds → Datum.InOrder l → Datum.InOrder l' →
            List.Forall₂ Datum.Incomparable l l' := by
  refine ⟨Datum.less_irrefl, fun a b c => Datum.less_trans, ?_, ?_, ?_, ?_⟩
  · exact fun a b hab => ⟨Datum.not_less_of_less hab, Datum.not_equal_of_less hab⟩
  · exact fun a a' b heq => Datum.less_of_equal heq b
  · intro kind a b c ha hb hc hab hbc
    rw [ha.incomparable_iff hb] at hab
    rw [hb.incomparable_iff hc] at hbc
    exact (ha.incomparable_iff hc).mpr (hab.trans hbc)
  · intro kind ds hds
    refine ⟨Datum.exists_inOrder hds, fun l l' hl hl' hsorted hsorted' => ?_⟩
    have horderable : ∀ d ∈ l, d.Orderable kind := fun d hd => hds d (hl.mem_iff.mp hd)
    exact hsorted.forall₂_incomparable horderable (hl.trans hl'.symm) hsorted'

/-- The string `a` comes before `ab`, and `ab` before `b`. The two zeros are ordered alike. Lists of
    one item are not comparable, whatever the item is, so there are two ways to sort them. -/
theorem strings_zeros_and_lists_ordered :
    (Datum.string (utf8 "a")).less (.string (utf8 "ab")) = true ∧
      (Datum.string (utf8 "ab")).less (.string (utf8 "b")) = true ∧
      (Datum.string (utf8 "a")).less (.string (utf8 "b")) = true ∧
      (Datum.string (utf8 "ab")).equal (.string (utf8 "b")) = false ∧
      (Datum.number (.zero false)).equal (.number (.zero true)) = true ∧
      (∀ b, (Datum.number (.zero false)).less b = (Datum.number (.zero true)).less b) ∧
      (Datum.list 1 [.number .nan]).Incomparable (.list 4 [.function none]) ∧
      List.Forall₂ Datum.Incomparable
        [.list 8 [], .list 1 [.number .nan], .list 4 [.function none]]
        [.list 8 [], .list 4 [.function none], .list 1 [.number .nan]] := by
  obtain ⟨-, htrans, hexcluded, hcompatible, hincomparable, hsorting⟩ := less_strict_weak_order
  have hfirst : (Datum.string (utf8 "a")).less (.string (utf8 "ab")) = true := by decide
  have hsecond : (Datum.string (utf8 "ab")).less (.string (utf8 "b")) = true := by decide
  have hzeros : (Datum.number (.zero false)).equal (.number (.zero true)) = true := by decide
  have hlist : ∀ capacity items, (Datum.list capacity items).Orderable .list :=
    fun capacity items => ⟨rfl, by decide, by decide, fun heq => by cases heq⟩
  have hsame : ∀ d d' : Datum, (Datum.list 1 [d]).Incomparable (.list 4 [d']) :=
    fun d d' => ⟨rfl, rfl⟩
  refine ⟨hfirst, hsecond, htrans _ _ _ hfirst hsecond, (hexcluded _ _ hsecond).2, hzeros,
    fun b => (hcompatible _ _ b hzeros).1, ?_, ?_⟩
  · exact hincomparable .list _ (.list 4 [.nil]) _ (hlist _ _) (hlist _ _) (hlist _ _)
      (hsame _ _) ⟨rfl, rfl⟩
  · refine (hsorting .list _ ?_).2 _ _ (.refl _) (.cons _ (.swap _ _ _)) ?_ ?_
    · intro d hd
      simp only [List.mem_cons, List.not_mem_nil, or_false] at hd
      rcases hd with rfl | rfl | rfl <;> exact hlist _ _
    · simp [Datum.InOrder, Datum.less, Datum.length?, Datum.kind]
    · simp [Datum.InOrder, Datum.less, Datum.length?, Datum.kind]

end ValueRuntime
