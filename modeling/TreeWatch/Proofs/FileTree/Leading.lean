import TreeWatch.Proofs.FileTree.Survey

/-!
# Where names lead

Names lead to a directory if following them ends there, however many links have to be crossed on the
way and however long their path is. Two lists of names that lead to one directory can be put for one
another in front of further names, although the number of links on the way changes.
-/

namespace TreeWatch

namespace FileTree

variable {tree : FileTree} {here there location : Location} {steps more : List Bytes}
  {links n m : Nat} {directory first second : DirectoryId} {reached other : Reached}
  {names : Location} {object : Object}

/-- Names lead to a directory, through however many links; one at the end is not followed. -/
def Leads (tree : FileTree) (names : Location) (directory : DirectoryId) : Prop :=
  ∃ links location, tree.follow false links [] names = .ok (.object location (.directory directory))

section Following

theorem follow_succ (h : tree.follow false n here steps = .ok reached) :
    tree.follow false (n + 1) here steps = .ok reached := by
  induction n generalizing here steps with
  | zero =>
    unfold follow at h ⊢
    cases hadvance : tree.advance false here steps with
    | reached what => simpa [hadvance] using h
    | refused error => simp [hadvance] at h
    | crossing holder target rest => simp [hadvance] at h
  | succ n ih =>
    unfold follow at h ⊢
    cases hadvance : tree.advance false here steps with
    | reached what => simpa [hadvance] using h
    | refused error => simp [hadvance] at h
    | crossing holder target rest =>
      simp only [hadvance] at h ⊢
      split at h
      · cases h
      · next hempty =>
        rw [if_neg hempty]
        exact ih h

theorem follow_mono (h : tree.follow false n here steps = .ok reached) (hle : n ≤ m) :
    tree.follow false m here steps = .ok reached := by
  induction hle with
  | refl => exact h
  | step _ ih => exact follow_succ ih

theorem eq_of_follow (h : tree.follow false n here steps = .ok reached)
    (h' : tree.follow false m here steps = .ok other) : reached = other := by
  rcases Nat.le_total n m with hle | hle
  · exact Except.ok.inj ((follow_mono h hle).symm.trans h')
  · exact Except.ok.inj (h.symm.trans (follow_mono h' hle))

theorem follow_congr (h : tree.advance false here steps = tree.advance false there more) (n : Nat) :
    tree.follow false n here steps = tree.follow false n there more := by
  unfold follow
  rw [h]

theorem exists_follow_of_crossing {holder : Location} {target : Path} {rest : List Bytes}
    (h : tree.advance false here steps = .crossing holder target rest)
    (htarget : target.isEmpty = false) :
    (∃ n, tree.follow false n here steps = .ok reached) ↔
      ∃ n, tree.follow false n (if target.isAbsolute then [] else holder) (stepsOf target ++ rest) =
        .ok reached := by
  constructor
  · rintro ⟨n, hn⟩
    cases n with
    | zero =>
      unfold follow at hn
      simp [h] at hn
    | succ n =>
      unfold follow at hn
      simp only [h, htarget, Bool.false_eq_true, if_false] at hn
      exact ⟨n, hn⟩
  · rintro ⟨n, hn⟩
    refine ⟨n + 1, ?_⟩
    unfold follow
    simpa only [h, htarget, Bool.false_eq_true, if_false] using hn

/-- Behind steps to a directory, further steps lead to what they lead to from there. -/
theorem exists_follow_append_iff
    (h : tree.follow false links here steps = .ok (.object location (.directory directory)))
    (hmore : more ≠ []) :
    (∃ n, tree.follow false n here (steps ++ more) = .ok reached) ↔
      ∃ n, tree.follow false n location more = .ok reached := by
  induction links generalizing here steps with
  | zero =>
    unfold follow at h
    cases hadvance : tree.advance false here steps with
    | reached what =>
      simp only [hadvance] at h
      cases h
      have hon := (@advance_append tree here false steps [] more rfl hmore).1 location directory
        (by rwa [List.append_nil])
      simp only [follow_congr hon]
    | refused error => simp [hadvance] at h
    | crossing holder target rest => simp [hadvance] at h
  | succ links ih =>
    unfold follow at h
    cases hadvance : tree.advance false here steps with
    | reached what =>
      simp only [hadvance] at h
      cases h
      have hon := (@advance_append tree here false steps [] more rfl hmore).1 location directory
        (by rwa [List.append_nil])
      simp only [follow_congr hon]
    | refused error => simp [hadvance] at h
    | crossing holder target rest =>
      simp only [hadvance] at h
      split at h
      · cases h
      · next hempty =>
        have hcrossing := (@advance_append tree here false steps [] more rfl hmore).2 holder
          target rest (by rwa [List.append_nil])
        obtain ⟨left, hleft, hon⟩ := hcrossing
        obtain rfl : rest = left := by rwa [List.append_nil] at hleft
        rw [exists_follow_of_crossing hon (Bool.eq_false_iff.mpr hempty), ← List.append_assoc]
        exact ih h

theorem follow_of_inspect_pathOf (hplace : IsPlace names)
    (h : tree.inspect (pathOf names) = .ok object) :
    ∃ location, tree.follow false linkLimit [] names = .ok (.object location object) := by
  obtain ⟨location, hfind⟩ := inspect_eq_ok_iff.mp h
  obtain ⟨-, -, -, hfollow⟩ := find_eq_ok_iff.mp hfind
  by_cases hnil : names = []
  · -- The one step of `/` is a dot, which leads nowhere.
    subst hnil
    exact ⟨location, (follow_congr rfl linkLimit).trans hfollow⟩
  · exact ⟨location, by rwa [stepsOf_pathOf hplace hnil] at hfollow⟩

end Following

namespace Leads

theorem unique (h : tree.Leads names first) (h' : tree.Leads names second) : first = second := by
  obtain ⟨_, _, hfirst⟩ := h
  obtain ⟨_, _, hsecond⟩ := h'
  cases eq_of_follow hfirst hsecond
  rfl

/-- What one list of names leads to, another one leads to if the two begin with ways to one
directory. -/
theorem exchange (hwf : tree.WellFormed) {a b : Location} (ha : tree.Leads a directory)
    (hb : tree.Leads b directory) (h : tree.Leads (a ++ more) first) :
    tree.Leads (b ++ more) first := by
  by_cases hmore : more = []
  · rw [hmore, List.append_nil] at h ⊢
    rwa [h.unique ha]
  · obtain ⟨_, place, hfollowA⟩ := ha
    obtain ⟨_, place', hfollowB⟩ := hb
    obtain rfl := hwf.unique (get?_of_follow hfollowA) (get?_of_follow hfollowB)
    obtain ⟨links, location, hfollow⟩ := h
    obtain ⟨n, hn⟩ := (exists_follow_append_iff hfollowA hmore).mp ⟨links, hfollow⟩
    obtain ⟨m, hm⟩ := (exists_follow_append_iff hfollowB hmore).mpr ⟨n, hn⟩
    exact ⟨m, location, hm⟩

theorem of_inspect (hplace : IsPlace names)
    (h : tree.inspect (pathOf names) = .ok (.directory directory)) :
    tree.Leads names directory := by
  obtain ⟨location, hfollow⟩ := follow_of_inspect_pathOf hplace h
  exact ⟨linkLimit, location, hfollow⟩

/-- Whatever is found under a path whose names lead to a directory is that directory. -/
theorem eq_of_inspect (hplace : IsPlace names) (h : tree.Leads names directory)
    (hinspect : tree.inspect (pathOf names) = .ok object) : object = .directory directory := by
  obtain ⟨_, _, hleads⟩ := h
  obtain ⟨_, hfollow⟩ := follow_of_inspect_pathOf hplace hinspect
  cases eq_of_follow hleads hfollow
  rfl

end Leads

end FileTree

end TreeWatch
