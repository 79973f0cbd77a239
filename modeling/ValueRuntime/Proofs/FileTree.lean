import Mathlib.Logic.Function.Iterate
import ValueRuntime.FileTree
import ValueRuntime.Proofs.NameTable

/-! # Clean paths, nearest paths and files that can be reached

    A path text is read into a clean path, whose components are names that stand for
    themselves. The text of a clean path is read back as that path from every directory.

    The search for the nearest path with a property goes from parent to parent. The paths at or
    above a path are its prefixes, and the root is the only path that is its own parent, so the
    search ends there at the latest, and the root is looked at before it does.

    A file is found at a path exactly when the tree has it there, no file stands on the way, and
    the path and its names are such that the system looks them up.
-/

namespace ValueRuntime

namespace Path

/-! ## Clean paths -/

/-- **A clean path:** every component is a name that stands for itself. -/
def IsClean (path : Path) : Prop :=
  ∀ name ∈ path, name ≠ [] ∧ name ≠ utf8 "." ∧ name ≠ utf8 ".." ∧ separator ∉ name

theorem IsClean.of_prefix {path above : Path} (hclean : path.IsClean) (habove : above <+: path) :
    above.IsClean :=
  fun name hname => hclean name (habove.subset hname)

theorem parts_cons_of_ne {b : UInt8} (hb : b ≠ separator) {text first : Bytes} {more : List Bytes}
    (hparts : parts text = first :: more) : parts (b :: text) = (b :: first) :: more := by
  have hbeq : (b == separator) = false := beq_eq_false_iff_ne.mpr hb
  simp only [parts, hbeq, hparts, Bool.false_eq_true, if_false]

theorem parts_separator_cons (text : Bytes) : parts (separator :: text) = [] :: parts text := by
  simp only [parts, beq_self_eq_true, if_true]

/-- A name in front of a text becomes part of its first component. -/
theorem parts_append {name text first : Bytes} {more : List Bytes} (hname : separator ∉ name)
    (hparts : parts text = first :: more) : parts (name ++ text) = (name ++ first) :: more := by
  induction name with
  | nil => exact hparts
  | cons b rest ih =>
    rw [List.mem_cons, not_or] at hname
    exact parts_cons_of_ne (Ne.symm hname.1) (ih hname.2)

theorem exists_parts (text : Bytes) : ∃ first more, parts text = first :: more := by
  induction text with
  | nil => exact ⟨[], [], rfl⟩
  | cons b rest ih =>
    obtain ⟨first, more, hrest⟩ := ih
    by_cases hb : b = separator
    · exact ⟨[], parts rest, by rw [hb, parts_separator_cons]⟩
    · exact ⟨b :: first, more, parts_cons_of_ne hb hrest⟩

/-- What stands between separators has none. -/
theorem separator_not_mem_parts {text part : Bytes} (hpart : part ∈ parts text) :
    separator ∉ part := by
  induction text generalizing part with
  | nil =>
    rw [List.mem_singleton.mp hpart]
    exact List.not_mem_nil
  | cons b rest ih =>
    by_cases hb : b = separator
    · rw [hb, parts_separator_cons] at hpart
      rcases List.mem_cons.mp hpart with rfl | hmore
      · exact List.not_mem_nil
      · exact ih hmore
    · obtain ⟨first, more, hrest⟩ := exists_parts rest
      rw [parts_cons_of_ne hb hrest] at hpart
      rw [hrest] at ih
      rcases List.mem_cons.mp hpart with rfl | hmore
      · rw [List.mem_cons, not_or]
        exact ⟨Ne.symm hb, ih List.mem_cons_self⟩
      · exact ih (List.mem_cons_of_mem first hmore)

theorem step_of_name {name : Bytes} (path : Path)
    (hname : name ≠ [] ∧ name ≠ utf8 "." ∧ name ≠ utf8 ".." ∧ separator ∉ name) :
    path.step name = path ++ [name] := by
  obtain ⟨hempty, hdot, hdots, -⟩ := hname
  simp only [step, List.isEmpty_iff, Bool.or_eq_true, beq_iff_eq, hempty, hdot, hdots, or_self,
    if_false]

theorem IsClean.step {path : Path} (hclean : path.IsClean) {component : Bytes}
    (hcomponent : separator ∉ component) : (path.step component).IsClean := by
  unfold Path.step
  split
  · exact hclean
  · next hstays =>
    simp only [List.isEmpty_iff, Bool.or_eq_true, beq_iff_eq, not_or] at hstays
    split
    · exact hclean.of_prefix (List.dropLast_prefix path)
    · next hup =>
      rw [beq_iff_eq] at hup
      intro name hname
      rcases List.mem_append.mp hname with hold | hnew
      · exact hclean name hold
      · rw [List.mem_singleton.mp hnew]
        exact ⟨hstays.1, hstays.2, hup, hcomponent⟩

theorem IsClean.steps {path : Path} (hclean : path.IsClean) {components : List Bytes}
    (hcomponents : ∀ component ∈ components, separator ∉ component) :
    (components.foldl Path.step path).IsClean := by
  induction components generalizing path with
  | nil => exact hclean
  | cons component rest ih =>
    exact ih (hclean.step (hcomponents component List.mem_cons_self))
      fun other hother => hcomponents other (List.mem_cons_of_mem _ hother)

/-- **Reading a path text gives a clean path.** -/
theorem IsClean.resolve {directory : Path} (hclean : directory.IsClean) (text : Bytes) :
    (Path.resolve directory text).IsClean := by
  have hstart : Path.IsClean (if isAbsolute text then [] else directory) := by
    split
    · exact fun name hname => by cases hname
    · exact hclean
  exact hstart.steps fun _ => separator_not_mem_parts

theorem parts_flatMap {path : Path} (hclean : path.IsClean) :
    parts (path.flatMap (separator :: ·)) = [] :: path := by
  induction path with
  | nil => rfl
  | cons name rest ih =>
    have hrest := ih fun other hother => hclean other (List.mem_cons_of_mem _ hother)
    have hname := (hclean name List.mem_cons_self).2.2.2
    rw [List.flatMap_cons, List.cons_append, parts_separator_cons, parts_append hname hrest,
      List.append_nil]

theorem foldl_step_of_isClean {path : Path} (hclean : path.IsClean) (start : Path) :
    path.foldl Path.step start = start ++ path := by
  induction path generalizing start with
  | nil => exact (List.append_nil start).symm
  | cons name rest ih =>
    rw [List.foldl_cons, step_of_name start (hclean name List.mem_cons_self),
      ih (fun other hother => hclean other (List.mem_cons_of_mem _ hother)), List.append_assoc]
    rfl

/-- **The text of a clean path is read back** from every directory. -/
theorem IsClean.resolve_text {path : Path} (hclean : path.IsClean) (directory : Path) :
    Path.resolve directory path.text = path := by
  cases path with
  | nil => rfl
  | cons name rest =>
    have hparts : parts (Path.text (name :: rest)) = [] :: name :: rest := parts_flatMap hclean
    have habsolute : isAbsolute (Path.text (name :: rest)) = true := rfl
    rw [Path.resolve, habsolute, if_pos rfl, hparts, List.foldl_cons]
    exact foldl_step_of_isClean hclean []

theorem text_ne_nil (path : Path) : path.text ≠ [] := by
  cases path <;> simp [Path.text]

/-! ## Nearest paths -/

theorem parent_eq_self_iff {path : Path} : path.parent = path ↔ path = [] := by
  constructor
  · intro hself
    have hlength : path.length - 1 = path.length := by
      rw [← List.length_dropLast]
      exact congrArg List.length hself
    exact List.eq_nil_of_length_eq_zero (by omega)
  · rintro rfl
    rfl

/-- What lies at or above a path is the path itself or lies at or above its parent. -/
theorem prefix_iff_parent {above path : Path} (hup : path.parent ≠ path) :
    above <+: path ↔ above = path ∨ above <+: path.parent := by
  have hne : path ≠ [] := fun hroot => hup (parent_eq_self_iff.mpr hroot)
  have hconcat : above <+: path.dropLast ++ [path.getLast hne] ↔ _ := List.prefix_concat_iff
  rw [List.dropLast_concat_getLast hne] at hconcat
  exact hconcat

/-- **The nearest path with a property:** it lies at or above the start, and no other path from
    it down to the start has the property. -/
structure IsNearest (P : Path → Prop) (start path : Path) : Prop where
  above : path <+: start
  holds : P path
  between : ∀ other, path <+: other → other ≠ path → other <+: start → ¬P other

/-- There is only one nearest path, since the paths above the start lie above each other. -/
theorem IsNearest.unique {P : Path → Prop} {start path path' : Path}
    (hnearest : IsNearest P start path) (hnearest' : IsNearest P start path') : path = path' := by
  by_contra hne
  rcases List.prefix_or_prefix_of_prefix hnearest.above hnearest'.above with hbelow | hbelow
  · exact hnearest.between path' hbelow (Ne.symm hne) hnearest'.above hnearest'.holds
  · exact hnearest'.between path hbelow hne hnearest.above hnearest.holds

variable {hasIt : Path → Bool} {start path : Path}

/-- **What the search finds is the nearest path,** and if it finds none there is none. The
    induction goes up with the search. -/
theorem nearest?_spec (hasIt : Path → Bool) (start : Path) :
    (∀ path, nearest? hasIt start = some path → IsNearest (hasIt · = true) start path) ∧
      (nearest? hasIt start = none → ∀ path, path <+: start → hasIt path = false) := by
  fun_induction nearest? hasIt start with
  | case1 start hhere =>
    refine ⟨?_, fun hnone => by cases hnone⟩
    rintro path ⟨⟩
    refine ⟨List.prefix_refl _, hhere, fun other hdown hne hup => ?_⟩
    exact absurd (hup.eq_of_length_le hdown.length_le) hne
  | case2 start hhere hroot =>
    refine ⟨fun path hsome => (by cases hsome), fun _ path hpath => ?_⟩
    -- The root is all there is at or above the root.
    rw [parent_eq_self_iff] at hroot
    subst hroot
    rw [List.prefix_nil.mp hpath]
    exact Bool.eq_false_iff.mpr hhere
  | case3 start hhere hup ih =>
    obtain ⟨hfound, hnone⟩ := ih
    constructor
    · intro path hsome
      obtain ⟨habove, hholds, hbetween⟩ := hfound path hsome
      refine ⟨habove.trans (List.dropLast_prefix start), hholds, fun other hdown hne hother => ?_⟩
      rcases (prefix_iff_parent hup).mp hother with rfl | hhigher
      · exact hhere
      · exact hbetween other hdown hne hhigher
    · intro hsearch path hpath
      rcases (prefix_iff_parent hup).mp hpath with rfl | hhigher
      · exact Bool.eq_false_iff.mpr hhere
      · exact hnone hsearch path hhigher

theorem nearest?_eq_some_iff :
    nearest? hasIt start = some path ↔ IsNearest (hasIt · = true) start path := by
  refine ⟨(nearest?_spec hasIt start).1 path, fun hnearest => ?_⟩
  cases hsearch : nearest? hasIt start with
  | none =>
    have hno := (nearest?_spec hasIt start).2 hsearch path hnearest.above
    rw [hnearest.holds] at hno
    cases hno
  | some path' => rw [((nearest?_spec hasIt start).1 path' hsearch).unique hnearest]

theorem nearest?_eq_none_iff :
    nearest? hasIt start = none ↔ ∀ path, path <+: start → hasIt path = false := by
  refine ⟨(nearest?_spec hasIt start).2, fun hall => ?_⟩
  cases hsearch : nearest? hasIt start with
  | none => rfl
  | some path =>
    have hnearest := (nearest?_spec hasIt start).1 path hsearch
    have hno := hall path hnearest.above
    rw [hnearest.holds] at hno
    cases hno

/-! ### Rounds of the search -/

/-- Where a search for the nearest path is: about to look at a path, or at its end. -/
inductive Search where
  | looking (path : Path)
  | ended (answer : Option Path)

/-- One round of the search. -/
def Search.next (hasIt : Path → Bool) : Search → Search
  | .looking path =>
    if hasIt path then .ended (some path)
    else if path.parent = path then .ended none
    else .looking path.parent
  | .ended answer => .ended answer

/-- **The search ends:** there are at most as many rounds as there are paths at or above the
    start. -/
theorem search_ends (hasIt : Path → Bool) (start : Path) {rounds : Nat}
    (hrounds : start.length < rounds) :
    (Search.next hasIt)^[rounds] (.looking start) = .ended (nearest? hasIt start) := by
  have hstays : ∀ (answer : Option Path) (more : Nat),
      (Search.next hasIt)^[more] (.ended answer) = .ended answer :=
    fun answer more => Function.iterate_fixed rfl more
  obtain ⟨more, rfl⟩ : ∃ more, rounds = more + 1 := ⟨rounds - 1, by omega⟩
  fun_induction nearest? hasIt start generalizing more with
  | case1 start hhere =>
    rw [Function.iterate_succ_apply, Search.next, if_pos hhere, hstays]
  | case2 start hhere hroot =>
    rw [Function.iterate_succ_apply, Search.next, if_neg hhere, if_pos hroot, hstays]
  | case3 start hhere hup ih =>
    have hshorter := length_parent_lt hup
    obtain ⟨less, rfl⟩ : ∃ less, more = less + 1 := ⟨more - 1, by omega⟩
    rw [Function.iterate_succ_apply, Search.next, if_neg hhere, if_neg hup]
    exact ih less (by omega)

end Path

/-! ## Files that can be reached -/

namespace FileTree

/-- **A file that can be reached** at a path: the tree has it there, no file stands on the way,
    and neither a name nor the text of the path is too long or has a zero byte. -/
structure HasFile (tree : FileTree) (path : Path) (content : Bytes) : Prop where
  file : tree.file? path = some content
  below : path ≠ []
  way : ∀ above, above <+: path → above ≠ [] → above ≠ path → tree.file? above = none
  names : ∀ name ∈ path, name.length ≤ longestName
  length : path.text.length ≤ longestPath
  bytes : 0 ∉ path.text

/-- What lies above a file is a directory. -/
theorem isDirectory_of_file? {tree : FileTree} {path above : Path} {content : Bytes}
    (hfile : tree.file? path = some content) (habove : above <+: path) (hne : above ≠ path) :
    tree.isDirectory above = true := by
  have hany : (tree.files.any fun file => above.isPrefixOf file.1 && file.1 != above) = true := by
    refine List.any_eq_true.mpr ⟨_, mem_of_lookup hfile, ?_⟩
    rw [Bool.and_eq_true, List.isPrefixOf_iff_prefix, bne_iff_ne]
    exact ⟨habove, Ne.symm hne⟩
  rw [isDirectory, hany, Bool.or_true]

/-- The ways down to a name and on from it. -/
theorem forall_way_cons_iff {P : Path → Prop} {name : Bytes} {rest : Path} :
    (∀ above, above <+: name :: rest → above ≠ [] → above ≠ name :: rest → P above) ↔
      (rest ≠ [] → P [name]) ∧
        ∀ above, above <+: rest → above ≠ [] → above ≠ rest → P (name :: above) := by
  constructor
  · intro hall
    refine ⟨fun hrest => ?_, fun above habove _ hne => ?_⟩
    · exact hall [name] ⟨rest, rfl⟩ (by simp) (by simpa using Ne.symm hrest)
    · exact hall (name :: above) (List.cons_prefix_cons.mpr ⟨rfl, habove⟩) (by simp)
        (by simpa using hne)
  · rintro ⟨hfirst, hmore⟩ above habove hbelow hne
    rcases List.prefix_cons_iff.mp habove with rfl | ⟨further, rfl, hfurther⟩
    · exact absurd rfl hbelow
    · have hne' : further ≠ rest := fun heq => hne (by rw [heq])
      by_cases hend : further = []
      · subst hend
        exact hfirst (Ne.symm hne')
      · exact hmore further hfurther hend hne'

/-- The names are looked up one after the other, and each but the last is the name of a
    directory. -/
theorem presenceBelow_eq_file_iff {tree : FileTree} {directory rest : Path} {content : Bytes} :
    tree.presenceBelow directory rest = .file content ↔
      tree.file? (directory ++ rest) = some content ∧ rest ≠ [] ∧
        (∀ above, above <+: rest → above ≠ [] → above ≠ rest →
          tree.file? (directory ++ above) = none) ∧
        ∀ name ∈ rest, name.length ≤ longestName := by
  induction rest generalizing directory with
  | nil => simp [presenceBelow]
  | cons name rest ih =>
    specialize @ih (directory ++ [name])
    simp only [List.append_assoc, List.singleton_append] at ih
    rw [forall_way_cons_iff, List.forall_mem_cons, presenceBelow]
    by_cases hlong : longestName < name.length
    · rw [if_pos hlong]
      refine iff_of_false (by simp) ?_
      rintro ⟨-, -, -, hname, -⟩
      omega
    rw [if_neg hlong]
    cases hhere : tree.file? (directory ++ [name]) with
    | some here =>
      by_cases hend : rest = []
      · subst hend
        simp [hhere, Nat.not_lt.mp hlong]
      · -- A file stands on the way.
        simp [hend]
    | none =>
      by_cases hfile : tree.file? (directory ++ name :: rest) = some content
      · have hmore : rest ≠ [] := by
          rintro rfl
          rw [hhere] at hfile
          cases hfile
        have hdirectory : tree.isDirectory (directory ++ [name]) = true :=
          isDirectory_of_file? hfile ⟨rest, by simp⟩ (by simpa using Ne.symm hmore)
        simp [hdirectory, ih, hmore, Nat.not_lt.mp hlong]
      · simp only [hfile, false_and, iff_false]
        split
        · exact fun hbelow => hfile (ih.mp hbelow).1
        · simp

/-- **What stands at a path is a file** exactly when a file can be reached there. -/
theorem presence_eq_file_iff {tree : FileTree} {path : Path} {content : Bytes} :
    tree.presence path = .file content ↔ tree.HasFile path content := by
  have hlooked : tree.presence path = .file content ↔
      (path.text.length ≤ longestPath ∧ 0 ∉ path.text) ∧
        tree.presenceBelow [] path = .file content := by
    unfold presence
    by_cases hbad : (path.text.contains 0 || longestPath < path.text.length) = true
    · rw [if_pos hbad]
      refine iff_of_false (by simp) ?_
      rintro ⟨⟨hlength, hbytes⟩, -⟩
      simp only [Bool.or_eq_true, List.contains_iff_mem, decide_eq_true_eq] at hbad
      rcases hbad with hzero | hlong
      · exact hbytes hzero
      · omega
    · rw [if_neg hbad]
      simp only [Bool.or_eq_true, List.contains_iff_mem, decide_eq_true_eq, not_or] at hbad
      simp only [hbad, Nat.not_lt.mp hbad.2, not_false_eq_true, and_self, true_and]
  rw [hlooked, presenceBelow_eq_file_iff]
  constructor
  · rintro ⟨⟨hlength, hbytes⟩, hfile, hbelow, hway, hnames⟩
    exact ⟨hfile, hbelow, hway, hnames, hlength, hbytes⟩
  · intro hhas
    exact ⟨⟨hhas.length, hhas.bytes⟩, hhas.file, hhas.below, hhas.way, hhas.names⟩

end FileTree

end ValueRuntime
