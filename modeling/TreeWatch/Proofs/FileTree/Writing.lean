import TreeWatch.FileTree.Change
import TreeWatch.Proofs.FileTree.Resolution

/-!
# Writing files

After a file was written its path leads to it, links followed: what was crossed on the way is still
there, and only at the end of the path does the tree differ.
-/

namespace TreeWatch

namespace FileTree

variable {tree next : FileTree} {here location : Location} {steps : List Bytes} {what : Reached}
  {object : Object} {content : Bytes} {mode links : Nat} {path : Path}

def Reached.place : Reached → Location
  | .object location _ => location
  | .free directory name => directory ++ [name]

/-- Nothing stands at a place but perhaps a file. -/
def TakesFile (tree : FileTree) (location : Location) : Prop :=
  ∀ object, tree.get? location = some object → ∃ content mode, object = .file content mode

theorem TakesFile.ne_nil (h : tree.TakesFile location) : location ≠ [] := by
  rintro rfl
  obtain ⟨content, mode, hfile⟩ := h _ (get?_nil tree)
  cases hfile

theorem TakesFile.get?_put (h : tree.TakesFile location) {other : Location}
    (hget : tree.get? other = some object) (hfile : ∀ content mode, object ≠ .file content mode)
    (added : Object) :
    (tree.put location added).get? other = some object := by
  rw [FileTree.get?_put tree h.ne_nil, if_neg, hget]
  rintro rfl
  obtain ⟨content, mode, heq⟩ := h object hget
  exact hfile content mode heq

theorem advance_put_of_crossing (h : tree.TakesFile location) (added : Object) {target : Path}
    {rest : List Bytes} {directory : Location}
    (hadvance : tree.advance true here steps = .crossing directory target rest) :
    (tree.put location added).advance true here steps = .crossing directory target rest := by
  fun_induction advance tree true here steps with
  | case1 => cases hadvance
  | case2 => cases hadvance
  | case3 here rest ih => rw [advance, if_pos rfl, ih hadvance]
  | case4 here rest hdot ih => rw [advance, if_neg hdot, if_pos rfl, ih hadvance]
  | case5 => cases hadvance
  | case6 => cases hadvance
  | case7 => cases hadvance
  | case8 here step rest hdot hdotDot hlength directory hget ih =>
    rw [advance, if_neg hdot, if_neg hdotDot, if_neg hlength, h.get?_put hget (by simp)]
    exact ih hadvance
  | case9 => cases hadvance
  | case10 => cases hadvance
  | case11 here step rest hdot hdotDot hlength target hget => simp at *
  | case12 here step rest hdot hdotDot hlength target hget hlast =>
    rw [advance, if_neg hdot, if_neg hdotDot, if_neg hlength, h.get?_put hget (by simp)]
    simpa [hlast] using hadvance

theorem TakesFile.get?_put_self (h : tree.TakesFile location) :
    (tree.put location object).get? location = some object := by
  rw [FileTree.get?_put tree h.ne_nil, if_pos rfl]

theorem advance_put_of_reached (h : tree.TakesFile what.place)
    (hadvance : tree.advance true here steps = .reached what) :
    (tree.put what.place (.file content mode)).advance true here steps =
      .reached (.object what.place (.file content mode)) := by
  fun_induction advance tree true here steps with
  | case1 here found hget =>
    obtain rfl := Stop.reached.inj hadvance
    have hput : (tree.put here (.file content mode)).get? here = _ := h.get?_put_self
    rw [advance, Reached.place, hput]
  | case2 => cases hadvance
  | case3 here rest ih => rw [advance, if_pos rfl, ih hadvance]
  | case4 here rest hdot ih => rw [advance, if_neg hdot, if_pos rfl, ih hadvance]
  | case5 => cases hadvance
  | case6 here step hdot hdotDot hlength hget =>
    obtain rfl := Stop.reached.inj hadvance
    have hput : (tree.put (here ++ [step]) (.file content mode)).get? (here ++ [step]) = _ :=
      h.get?_put_self
    rw [advance, if_neg hdot, if_neg hdotDot, if_neg hlength, Reached.place, hput]
    rfl
  | case7 => cases hadvance
  | case8 here step rest hdot hdotDot hlength directory hget ih =>
    rw [advance, if_neg hdot, if_neg hdotDot, if_neg hlength, h.get?_put hget (by simp)]
    exact ih hadvance
  | case9 here step hdot hdotDot hlength old oldMode hget =>
    obtain rfl := Stop.reached.inj hadvance
    have hput : (tree.put (here ++ [step]) (.file content mode)).get? (here ++ [step]) = _ :=
      h.get?_put_self
    rw [advance, if_neg hdot, if_neg hdotDot, if_neg hlength, Reached.place, hput]
    rfl
  | case10 => cases hadvance
  | case11 here step rest hdot hdotDot hlength target hget => simp at *
  | case12 => cases hadvance

theorem follow_put (h : tree.TakesFile what.place)
    (hfollow : tree.follow true links here steps = .ok what) :
    (tree.put what.place (.file content mode)).follow true links here steps =
      .ok (.object what.place (.file content mode)) := by
  induction links generalizing here steps with
  | zero =>
    unfold follow at hfollow
    split at hfollow
    · next found hadvance =>
      obtain rfl := Except.ok.inj hfollow
      rw [follow, advance_put_of_reached h hadvance]
    · cases hfollow
    · cases hfollow
  | succ links ih =>
    unfold follow at hfollow
    split at hfollow
    · next found hadvance =>
      obtain rfl := Except.ok.inj hfollow
      rw [follow, advance_put_of_reached h hadvance]
    · cases hfollow
    · next directory target rest hadvance =>
      simp only at hfollow
      split at hfollow
      · cases hfollow
      · next htarget =>
        rw [follow, advance_put_of_crossing h _ hadvance]
        simp only [htarget]
        exact ih hfollow

theorem find_put (h : tree.TakesFile what.place) (hreach : tree.reach true path = .ok what) :
    (tree.put what.place (.file content mode)).find true path = .ok (what.place,
      .file content mode) := by
  unfold reach at hreach
  split at hreach
  · cases hreach
  · next hnul =>
    split at hreach
    · cases hreach
    · next hempty =>
      split at hreach
      · cases hreach
      · next hlong =>
          rw [find, reach, if_neg hnul, if_neg hempty, if_neg hlong, follow_put h hreach]

/-! ## What is there before -/

theorem get?_of_advance_free {directory : Location} {name : Bytes}
    (h : tree.advance true here steps = .reached (.free directory name)) :
    tree.get? (directory ++ [name]) = none := by
  fun_induction advance tree true here steps with
  | case6 here step hdot hdotDot hlength hget =>
    obtain ⟨rfl, rfl⟩ := Reached.free.inj (Stop.reached.inj h)
    exact hget
  | case3 here rest ih => exact ih h
  | case4 here rest hdot ih => exact ih h
  | case8 here step rest hdot hdotDot hlength directory hget ih => exact ih h
  | _ => cases h

theorem get?_of_follow_free {directory : Location} {name : Bytes}
    (h : tree.follow true links here steps = .ok (.free directory name)) :
    tree.get? (directory ++ [name]) = none := by
  induction links generalizing here steps with
  | zero =>
    unfold follow at h
    split at h
    · next found hadvance =>
        exact get?_of_advance_free (hadvance.trans (congrArg _ (Except.ok.inj h)))
    · cases h
    · cases h
  | succ links ih =>
    unfold follow at h
    split at h
    · next found hadvance =>
        exact get?_of_advance_free (hadvance.trans (congrArg _ (Except.ok.inj h)))
    · cases h
    · simp only at h
      split at h
      · cases h
      · exact ih h

theorem follow_of_reach {followLast : Bool} (h : tree.reach followLast path = .ok what) :
    tree.follow followLast linkLimit [] (stepsOf path) = .ok what := by
  unfold reach at h
  split at h
  · cases h
  · split at h
    · cases h
    · split at h
      · cases h
      · exact h

/-- A file that was written is found under its path with what was written. -/
theorem exists_find_of_writeFile (h : tree.writeFile path content mode = .ok next) :
    ∃ location mode, next.find true path = .ok (location, .file content mode) := by
  unfold writeFile at h
  split at h
  · split at h
    · cases h
    · split at h <;> cases h
  · split at h
    · cases h
    · next location old oldMode hreach =>
      -- A file that was there keeps its mode.
      obtain rfl := Except.ok.inj h
      have hget : tree.get? location = some (.file old oldMode) :=
        get?_of_follow (follow_of_reach hreach)
      have htakes : tree.TakesFile location := fun object hobject =>
        ⟨old, oldMode, Option.some.inj (hobject.symm.trans hget)⟩
      exact ⟨location, oldMode, find_put htakes hreach⟩
    · cases h
    · next directory name hreach =>
      obtain rfl := Except.ok.inj h
      have hget : tree.get? (directory ++ [name]) = none :=
        get?_of_follow_free (follow_of_reach hreach)
      have htakes : tree.TakesFile (directory ++ [name]) := fun object hobject =>
        absurd (hobject.symm.trans hget) (by simp)
      exact ⟨directory ++ [name], mode, find_put htakes hreach⟩

end FileTree

end TreeWatch
