import ValueRuntime.Manifest
import ValueRuntime.Proofs.FileTree

/-! # Finding the manifest of a directory

    A directory holds a manifest when a file with the name of manifests can be reached in it. A
    directory of that name is no manifest, and a path that the system does not look up holds
    none. The search passes over all of these and goes on with the parent.

    The manifest for a directory is the one in the nearest directory at or above it that holds
    one, whatever it is like. An error in it does not make the search go on.
-/

namespace ValueRuntime.Manifest

/-- **A directory holds a manifest** when a file of that name can be reached in it. -/
def Holds (tree : FileTree) (directory : Path) : Prop :=
  ∃ content, tree.HasFile (directory ++ [fileName]) content

section Search

variable {tree : FileTree} {directory start : Path}

theorem isIn_iff : isIn tree directory = true ↔ Holds tree directory := by
  simp only [Holds, ← FileTree.presence_eq_file_iff, isIn]
  cases tree.presence (directory ++ [fileName]) <;> simp

theorem find?_eq_some_iff :
    find? tree start = some directory ↔ Path.IsNearest (Holds tree) start directory := by
  rw [find?, Path.nearest?_eq_some_iff]
  simp only [isIn_iff]

theorem find?_eq_none_iff :
    find? tree start = none ↔ ∀ above, above <+: start → ¬Holds tree above := by
  rw [find?, Path.nearest?_eq_none_iff]
  simp only [← isIn_iff, Bool.not_eq_true]

theorem findAndLoad_of_nearest (hnearest : Path.IsNearest (Holds tree) start directory) :
    findAndLoad tree start = (load tree directory).map some := by
  rw [findAndLoad, find?_eq_some_iff.mpr hnearest]

theorem findAndLoad_of_none (hnone : ∀ above, above <+: start → ¬Holds tree above) :
    findAndLoad tree start = .ok none := by
  rw [findAndLoad, find?_eq_none_iff.mpr hnone]

/-- The text of the answer is empty when there is none, since no path has an empty text. -/
theorem text_eq_nil_iff (answer : Option Path) :
    (answer.map Path.text).getD [] = [] ↔ answer = none := by
  cases answer with
  | none => simp
  | some path => simp [Path.text_ne_nil]

end Search

/-- **The manifest of a directory is that of the nearest directory with one.** The directory is
    given by a text and seen from a working directory. The search ends after one round for each
    path at or above it, at the latest. It finds a directory exactly if that is the nearest one
    at or above the start that holds a manifest file, and its answer is empty exactly if there is
    none up to the root. Finding and loading is then loading from that directory by its text, or
    gives no manifest and no error. -/
theorem nearest_manifest_is_loaded {tree : FileTree} {working start : Path} {text : Bytes}
    (hworking : working.IsClean) (hstart : Path.resolve working text = start) :
    start.IsClean ∧
      (Path.Search.next (isIn tree))^[start.length + 1] (.looking start)
        = .ended (find? tree start) ∧
      (∀ found, find? tree start = some found ↔ Path.IsNearest (Holds tree) start found) ∧
      (((find? tree start).map Path.text).getD [] = [] ↔
        ∀ above, above <+: start → ¬Holds tree above) ∧
      (∀ found, Path.IsNearest (Holds tree) start found →
        findAndLoad tree start = (load tree (Path.resolve working found.text)).map some) ∧
      ((∀ above, above <+: start → ¬Holds tree above) → findAndLoad tree start = .ok none) := by
  have hclean : start.IsClean := by
    rw [← hstart]
    exact hworking.resolve text
  refine ⟨hclean, Path.search_ends _ start (Nat.lt_succ_self _), fun _ => find?_eq_some_iff,
    ?_, ?_, findAndLoad_of_none⟩
  · rw [text_eq_nil_iff, find?_eq_none_iff]
  · intro found hnearest
    rw [(hclean.of_prefix hnearest.above).resolve_text working]
    exact findAndLoad_of_nearest hnearest

/-- A project with an empty manifest and a directory that is named like one. -/
def nestedProject : FileTree :=
  ⟨[([utf8 "p", fileName], [])], [[utf8 "p", utf8 "a", fileName]]⟩

/-- Seen from the project, the text `a/./linx.toml` leads to the directory that is named like a
    manifest. The search passes over it and over the directory above it, and loads the manifest
    of the project. -/
theorem directory_named_like_manifest_passed_over :
    Path.IsClean [utf8 "p"] ∧
      Path.resolve [utf8 "p"] (utf8 "a/./linx.toml") = [utf8 "p", utf8 "a", fileName] ∧
      nestedProject.presence [utf8 "p", utf8 "a", fileName] = .directory ∧
      Path.IsNearest (Holds nestedProject) [utf8 "p", utf8 "a", fileName] [utf8 "p"] ∧
      findAndLoad nestedProject [utf8 "p", utf8 "a", fileName]
        = (load nestedProject (Path.resolve [utf8 "p"] (utf8 "/p"))).map some := by
  have hclean : Path.IsClean [utf8 "p"] := by
    intro name hname
    rw [List.mem_singleton.mp hname]
    decide
  have hstart : Path.resolve [utf8 "p"] (utf8 "a/./linx.toml")
      = [utf8 "p", utf8 "a", fileName] := by
    decide
  have hfound : find? nestedProject [utf8 "p", utf8 "a", fileName] = some [utf8 "p"] := by
    rw [find?, Path.nearest?, if_neg (by decide), if_neg (by decide), Path.nearest?,
      if_neg (by decide), if_neg (by decide), Path.nearest?, if_pos (by decide)]
    rfl
  obtain ⟨-, -, hsome, -, hload, -⟩ := @nearest_manifest_is_loaded nestedProject _ _ _ hclean hstart
  have hnearest := (hsome _).mp hfound
  exact ⟨hclean, hstart, by decide, hnearest, hload _ hnearest⟩

end ValueRuntime.Manifest
