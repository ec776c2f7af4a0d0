import TreeWatch.Proofs.Path.Place

/-!
# Looking paths up

A path leads to an object if it can be looked up at all and its steps end there. What stands at a
path, the path of the place that it leads to, and whether a directory is there are told from what is
found.
-/

namespace TreeWatch

namespace FileTree

variable {tree : FileTree} {path : Path} {location : Location} {object : Object}
  {directory : DirectoryId} {followLast : Bool}

theorem find_eq_ok_iff :
    tree.find followLast path = .ok (location, object) ↔
      path.bytes.contains 0 = false ∧ path.bytes ≠ [] ∧ path.bytes.length < pathLimit ∧
        tree.follow followLast linkLimit [] (stepsOf path) = .ok (.object location object) := by
  have hempty : path.isEmpty = true ↔ path.bytes = [] := List.isEmpty_iff
  rw [find, reach]
  by_cases hnul : path.bytes.contains 0 = true
  · rw [if_pos hnul]
    exact iff_of_false (by simp) fun h => Bool.noConfusion (hnul.symm.trans h.1)
  · rw [if_neg hnul]
    by_cases hnil : path.bytes = []
    · rw [if_pos (hempty.mpr hnil)]
      exact iff_of_false (by simp) fun h => h.2.1 hnil
    · rw [if_neg (mt hempty.mp hnil)]
      by_cases hlong : pathLimit ≤ path.bytes.length
      · rw [if_pos hlong]
        exact iff_of_false (by simp) fun h => Nat.not_lt.mpr hlong h.2.2.1
      · rw [if_neg hlong, Bool.eq_false_iff.mpr hnul]
        cases tree.follow followLast linkLimit [] (stepsOf path) with
        | error error => simp
        | ok reached => cases reached <;> simp [hnil, Nat.not_le.mp hlong]

theorem map_find_eq_ok_iff : (tree.find followLast path).map (·.2) = .ok object ↔
    ∃ location, tree.find followLast path = .ok (location, object) := by
  cases tree.find followLast path with
  | error error => simp [Except.map]
  | ok found => simp [Except.map, Prod.ext_iff]

theorem inspect_eq_ok_iff :
    tree.inspect path = .ok object ↔ ∃ location, tree.find false path = .ok (location, object) :=
  map_find_eq_ok_iff

theorem inspectTarget_eq_ok_iff :
    tree.inspectTarget path = .ok object ↔
      ∃ location, tree.find true path = .ok (location, object) :=
  map_find_eq_ok_iff

theorem isDirectory_iff :
    tree.isDirectory path = true ↔ ∃ directory, tree.inspect path = .ok (.directory directory) := by
  unfold isDirectory
  cases tree.inspect path with
  | error error => simp
  | ok object => cases object <;> simp [Object.isDirectory]

theorem canonical_eq_ok_iff {canonical : Path} :
    tree.canonical path = .ok canonical ↔ ∃ location object,
      tree.find true path = .ok (location, object) ∧ IsShort location ∧
      canonical = pathOf location := by
  unfold FileTree.canonical
  cases tree.find true path with
  | error error => simp
  | ok found =>
    obtain ⟨location, object⟩ := found
    simp only [Except.ok.injEq, Prod.mk.injEq]
    constructor
    · intro h
      split at h
      · cases h
      · next hshort =>
          exact ⟨location, object, ⟨rfl, rfl⟩, Nat.not_le.mp hshort, (Except.ok.inj h).symm⟩
    · rintro ⟨_, _, ⟨rfl, rfl⟩, hshort, rfl⟩
      rw [if_neg (Nat.not_le.mpr hshort)]

/-! ## Directories and what is there -/

theorem inspect_of_find (h : tree.find false path = .ok (location, object)) :
    tree.inspect path = .ok object :=
  inspect_eq_ok_iff.mpr ⟨location, h⟩

theorem length_lt_of_inspect (h : tree.inspect path = .ok object) :
    path.bytes.length < pathLimit := by
  obtain ⟨location, hfind⟩ := inspect_eq_ok_iff.mp h
  exact (find_eq_ok_iff.mp hfind).2.2.1

theorem eq_of_inspect {first second : DirectoryId}
    (hfirst : tree.inspect path = .ok (.directory first))
    (hsecond : tree.inspect path = .ok (.directory second)) : first = second :=
  Object.directory.inj (Except.ok.inj (hfirst.symm.trans hsecond))

theorem isDirectory_of_inspect (h : tree.inspect path = .ok (.directory directory)) :
    tree.isDirectory path = true :=
  isDirectory_iff.mpr ⟨directory, h⟩

theorem exists_find_of_isDirectory (h : tree.isDirectory path = true) :
    ∃ location directory, tree.find false path = .ok (location, .directory directory) := by
  obtain ⟨directory, hinspect⟩ := isDirectory_iff.mp h
  obtain ⟨location, hfind⟩ := inspect_eq_ok_iff.mp hinspect
  exact ⟨location, directory, hfind⟩

theorem length_lt_of_isDirectory (h : tree.isDirectory path = true) :
    path.bytes.length < pathLimit := by
  obtain ⟨directory, hinspect⟩ := isDirectory_iff.mp h
  exact length_lt_of_inspect hinspect

theorem bytes_ne_nil_of_isDirectory (h : tree.isDirectory path = true) : path.bytes ≠ [] := by
  obtain ⟨location, directory, hfind⟩ := exists_find_of_isDirectory h
  exact (find_eq_ok_iff.mp hfind).2.1

end FileTree

end TreeWatch
