import TreeWatch.Proofs.FileTree.Resolution
import TreeWatch.Proofs.Roots.Retirement

/-!
# The roots that paths name

Roots that paths name in a tree are directories of the tree under the paths of their places, and no
two of them are the same directory.
-/

namespace TreeWatch

open FileTree

namespace Roots

variable {tree : FileTree} {roots : Roots} {root : Root} {known rest : List Root} {path : Path}
  {paths : List Path}

/-- Each live root is the directory that it was when it was named, and stands at its path. -/
def Named (roots : Roots) (tree : FileTree) : Prop :=
  ∀ root ∈ roots.live, ∃ location,
    root.path = pathOf location ∧ tree.get? location = some (.directory root.directory)

theorem identify_eq_ok (h : identify tree path = .ok root) : ∃ location,
    root.path = pathOf location ∧ tree.get? location = some (.directory root.directory) := by
  unfold identify at h
  split at h
  · exact absurd h (by simp)
  · exact absurd h (by simp)
  · next directory hinspect =>
    split at h
    · next canonical hcanonical =>
      obtain rfl := Except.ok.inj h
      obtain ⟨location, hfind⟩ := inspectTarget_eq_ok_iff.mp hinspect
      obtain ⟨place, object, hplace, -, rfl⟩ := canonical_eq_ok_iff.mp hcanonical
      obtain ⟨rfl, -⟩ := Prod.mk.inj (Except.ok.inj (hfind.symm.trans hplace))
      exact ⟨location, rfl, get?_of_find hfind⟩
    · exact absurd h (by simp)
  · exact absurd h (by simp)

theorem enroll_eq_none (h : enroll tree known paths = (rest, none))
    (hknown : ∀ root ∈ known, ∃ location,
      root.path = pathOf location ∧ tree.get? location = some (.directory root.directory))
    (hnodup : (known.map (·.directory)).Nodup) :
    (∀ root ∈ rest, ∃ location,
      root.path = pathOf location ∧ tree.get? location = some (.directory root.directory)) ∧
      (rest.map (·.directory)).Nodup := by
  induction paths generalizing known with
  | nil =>
    obtain ⟨rfl, -⟩ := Prod.mk.inj h
    exact ⟨hknown, hnodup⟩
  | cons path paths ih =>
    unfold enroll at h
    split at h
    · exact absurd (Prod.mk.inj h).2 (by simp)
    · next root hidentify =>
      split at h
      · exact absurd (Prod.mk.inj h).2 (by simp)
      · next hnone =>
        apply ih h
        · intro other hother
          rcases List.mem_append.mp hother with hother | hother
          · exact hknown other hother
          · rw [List.mem_singleton.mp hother]
            exact identify_eq_ok hidentify
        · rw [List.map_append, List.nodup_append]
          refine ⟨hnodup, by simp, ?_⟩
          intro a ha b hb heq
          obtain ⟨other, hother, rfl⟩ := List.mem_map.mp ha
          have hb' : b = root.directory := by simpa using hb
          have hfind := List.find?_eq_none.mp hnone other hother
          simp [heq, hb'] at hfind

theorem ofPaths_eq_ok (h : ofPaths tree paths = .ok roots) :
    roots.Named tree ∧ (roots.live.map (·.directory)).Nodup := by
  unfold ofPaths at h
  split at h
  · exact absurd h (by simp)
  · split at h
    · next known henroll =>
      obtain rfl := Except.ok.inj h
      have hlive : (⟨known.map some, 0⟩ : Roots).live = known := by simp [live, List.filterMap_map]
      rw [Named, hlive]
      exact enroll_eq_none henroll (by simp) (by simp)
    · exact absurd h (by simp)

theorem enroll_identified (h : enroll tree known paths = (rest, none)) :
    ∃ found, rest = known ++ found ∧
      List.Forall₂ (fun path root => identify tree path = .ok root) paths found := by
  induction paths generalizing known with
  | nil =>
    obtain ⟨rfl, -⟩ := Prod.mk.inj h
    exact ⟨[], (List.append_nil _).symm, .nil⟩
  | cons path paths ih =>
    unfold enroll at h
    split at h
    · exact absurd (Prod.mk.inj h).2 (by simp)
    · next root hidentify =>
      split at h
      · exact absurd (Prod.mk.inj h).2 (by simp)
      · obtain ⟨found, rfl, hfound⟩ := ih h
        exact ⟨root :: found, by simp, .cons hidentify hfound⟩

/-- Each path has its root, in the order of the paths, and at first all of them are live. -/
theorem ofPaths_identified (h : ofPaths tree paths = .ok roots) :
    paths ≠ [] ∧ roots.retiredCount = 0 ∧
      List.Forall₂ (fun path root => identify tree path = .ok root) paths roots.live := by
  unfold ofPaths at h
  split at h
  · exact absurd h (by simp)
  · next hpaths =>
    split at h
    · next known henroll =>
      obtain rfl := Except.ok.inj h
      obtain ⟨found, rfl, hfound⟩ := enroll_identified henroll
      refine ⟨by simpa using hpaths, ?_, ?_⟩
      · simp [retiredCount]
      · simpa [live, List.filterMap_map] using hfound
    · exact absurd h (by simp)

end Roots

end TreeWatch
