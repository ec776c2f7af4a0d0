import TreeWatch.Proofs.FileTree.WellFormed

/-!
# Where directories stand after a change

What making, removing and moving a directory means for the directories of a tree: one more, one
less, or the same ones with those of the moved subtree at new places.
-/

namespace TreeWatch

namespace FileTree

variable {tree : FileTree} {location place source target : Location} {object : Object}
  {directory : DirectoryId}

theorem WellFormed.not_prefix_of_free (h : tree.WellFormed) (hfree : tree.get? location = none)
    (hget : tree.get? place = some object) : ¬ location <+: place := by
  rintro ⟨more, rfl⟩
  rw [h.get?_append_eq_none hfree more] at hget
  exact absurd hget (by simp)

theorem WellFormed.isShort_of_objects (h : tree.WellFormed)
    (hobjects : ∀ entry ∈ tree.objects, IsShort entry.1) (hget : tree.get? location = some object) :
    IsShort location := by
  by_cases hnil : location = []
  · subst hnil
    decide
  · exact hobjects _ (h.mem_objects_iff.mpr ⟨hnil, hget⟩)

theorem WellFormed.free_of_objects (h : tree.WellFormed)
    (hobjects : ∀ entry ∈ tree.objects, entry.1.dropLast ≠ location) (name : Bytes) :
    tree.get? (location ++ [name]) = none := by
  by_contra hsome
  obtain ⟨object, hget⟩ := Option.ne_none_iff_exists'.mp hsome
  have hmem := h.mem_objects_iff.mpr ⟨by simp, hget⟩
  exact hobjects _ hmem List.dropLast_concat

theorem get?_putDirectory_eq_some_iff (hfree : tree.get? location = none) :
    (tree.putDirectory location).get? place = some (.directory directory) ↔
      place = location ∧ directory = tree.nextId ∨
        tree.get? place = some (.directory directory) :=
  (WellFormed.get?_put_eq_some_iff hfree).trans (by rw [Object.directory.injEq])

theorem get?_erase_of_empty (h : tree.WellFormed) (hne : location ≠ [])
    (hempty : ∀ name, tree.get? (location ++ [name]) = none) :
    (tree.erase location).get? place = if place = location then none else tree.get? place := by
  rw [get?_erase tree hne]
  by_cases heq : place = location
  · simp [heq]
  · rw [if_neg heq]
    split
    · next hbelow =>
      obtain ⟨more, rfl⟩ := hbelow
      cases more with
      | nil => exact absurd (List.append_nil location) heq
      | cons name rest =>
        have hnone := h.get?_append_eq_none (hempty name) rest
        rw [List.append_assoc, List.singleton_append] at hnone
        exact hnone.symm
    · rfl

theorem get?_erase_eq_some_iff (h : tree.WellFormed) (hne : location ≠ [])
    (hempty : ∀ name, tree.get? (location ++ [name]) = none) :
    (tree.erase location).get? place = some object ↔
      place ≠ location ∧ tree.get? place = some object := by
  rw [get?_erase_of_empty h hne hempty]
  split <;> simp [*]

/-- The place of what stood at `location` after the directory at `source` went to `target`. -/
def placeAfter (source target location : Location) : Location :=
  if source <+: location then target ++ location.drop source.length else location

theorem placeAfter_append (source target more : Location) :
    placeAfter source target (source ++ more) = target ++ more := by
  simp [placeAfter]

theorem placeAfter_eq_self (h : ¬ source <+: location) :
    placeAfter source target location = location := if_neg h

/-- What stood somewhere stands after a move at the place that the move takes it to. -/
theorem WellFormed.get?_relocate_placeAfter (h : tree.WellFormed) (hsource : source ≠ [])
    (hfree : tree.get? target = none) (hget : tree.get? location = some object) :
    (tree.relocate source target).get? (placeAfter source target location) = some object := by
  by_cases hbelow : source <+: location
  · obtain ⟨more, rfl⟩ := hbelow
    rw [placeAfter_append, get?_relocate_of_below h hsource hfree, hget]
  · rw [placeAfter_eq_self hbelow,
      get?_relocate_of_apart h hsource hfree (h.not_prefix_of_free hfree hget) hbelow, hget]

theorem WellFormed.exists_of_get?_relocate (h : tree.WellFormed) (hsource : source ≠ [])
    (hfree : tree.get? target = none)
    (hget : (tree.relocate source target).get? place = some object) :
    ∃ location, placeAfter source target location = place ∧ tree.get? location = some object := by
  rcases get?_relocate_cases h hsource hfree hget with ⟨more, rfl, hold⟩ | ⟨-, hapart, hold⟩
  · exact ⟨source ++ more, placeAfter_append source target more, hold⟩
  · exact ⟨place, placeAfter_eq_self hapart, hold⟩

/-- The directory at `source` can be moved to the free name `name` in the directory at `target`,
which is not inside it. -/
structure Movable (tree : FileTree) (source target : Location) (name : Bytes)
    (directory : DirectoryId) : Prop where
  get : tree.get? source = some (.directory directory)
  ne : source ≠ []
  holder : ∃ holder, tree.get? target = some (.directory holder)
  out : ¬ source <+: target
  isName : IsName name
  free : tree.get? (target ++ [name]) = none

namespace Movable

variable {name : Bytes}

theorem wellFormed (h : Movable tree source target name directory) (hwf : tree.WellFormed) :
    (tree.relocate source (target ++ [name])).WellFormed := by
  obtain ⟨holder, hholder⟩ := h.holder
  exact hwf.relocate h.ne hholder h.isName h.free h.out

theorem not_inside (h : Movable tree source target name directory) :
    ¬ source <+: target ++ [name] := by
  intro hbelow
  rcases List.prefix_concat_iff.mp hbelow with heq | hbelow
  · have hget := h.get
    rw [heq, h.free] at hget
    exact absurd hget (by simp)
  · exact h.out hbelow

theorem get_target (h : Movable tree source target name directory) (hwf : tree.WellFormed) :
    (tree.relocate source (target ++ [name])).get? (target ++ [name]) =
      some (.directory directory) := by
  simp [get?_relocate hwf h.ne h.free, h.get]

theorem get_below (h : Movable tree source target name directory) (hwf : tree.WellFormed)
    (hbelow : source <+: place) : (tree.relocate source (target ++ [name])).get? place = none := by
  rw [get?_relocate hwf h.ne h.free, if_pos hbelow, if_neg]
  intro hplace
  rcases List.prefix_or_prefix_of_prefix hbelow hplace with hprefix | hprefix
  · exact h.not_inside hprefix
  · exact hwf.not_prefix_of_free h.free h.get hprefix

theorem get_elsewhere (h : Movable tree source target name directory) (hwf : tree.WellFormed)
    (hsource : ¬ source <+: place) (htarget : ¬ target ++ [name] <+: place) :
    (tree.relocate source (target ++ [name])).get? place = tree.get? place :=
  get?_relocate_of_apart hwf h.ne h.free htarget hsource

end Movable

end FileTree

end TreeWatch
