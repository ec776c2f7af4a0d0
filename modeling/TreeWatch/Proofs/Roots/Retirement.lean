import TreeWatch.Roots
import Mathlib.Data.List.Basic
import Mathlib.Data.List.Forall2

/-!
# The live roots

The places of the roots seen as the list of the roots that are live. Retiring at a path takes the
first live root there from the list and counts it, and leaves all as it is if there is none. A place
that is free stays free, so the list only ever gets shorter, and what it loses the count of the
retired roots gains.
-/

namespace TreeWatch

namespace Roots

variable {roots : Roots} {path : Path}

theorem isRoot_iff :
    roots.isRoot path = true ↔ ∃ root ∈ roots.live, root.path.same path = true := by
  rw [isRoot, locate?, Option.isSome_iff_ne_none, ne_eq, List.findIdx?_eq_none_iff, live]
  constructor
  · intro h
    by_contra hnone
    apply h
    intro place hplace
    cases place with
    | none => rfl
    | some root =>
      refine Bool.eq_false_iff.mpr fun hsame => hnone ⟨root, ?_, by simpa using hsame⟩
      exact List.mem_filterMap.mpr ⟨some root, hplace, rfl⟩
  · rintro ⟨root, hroot, hsame⟩ h
    obtain ⟨place, hplace, rfl⟩ := List.mem_filterMap.mp hroot
    simpa [hsame] using h (some root) hplace

theorem retire_of_not_isRoot (h : roots.isRoot path = false) :
    roots.retire path = (.notARoot, roots) := by
  rw [isRoot, Option.isSome_eq_false_iff, Option.isNone_iff_eq_none] at h
  rw [retire, h]

theorem retire_fst_eq_notARoot_iff :
    (roots.retire path).1 = .notARoot ↔ roots.isRoot path = false := by
  cases h : roots.locate? path with
  | none => simp [retire, isRoot, h]
  | some index =>
    simp only [retire, isRoot, h]
    split <;> simp

theorem filterMap_set_findIdx? {p : Root → Bool} {places : List (Option Root)} {index : Nat}
    (h : places.findIdx? (fun place => place.any p) = some index) :
    (places.set index none).filterMap id = (places.filterMap id).eraseP p := by
  induction places generalizing index with
  | nil => simp at h
  | cons head rest ih =>
    rw [List.findIdx?_cons] at h
    split at h
    · next hp =>
      obtain rfl : 0 = index := Option.some.inj h
      cases head with
      | none => simp at hp
      | some root =>
        have hroot : p root = true := by simpa using hp
        simp [List.eraseP_cons_of_pos hroot]
    · next hp =>
      obtain ⟨before, hbefore, rfl⟩ := Option.map_eq_some_iff.mp h
      cases head with
      | none => simpa using ih hbefore
      | some root =>
        have hroot : ¬ p root = true := by simpa using hp
        simpa [List.eraseP_cons_of_neg hroot] using ih hbefore

/-- Retiring takes the first live root at the path. -/
theorem live_retire (roots : Roots) (path : Path) :
    (roots.retire path).2.live = roots.live.eraseP (·.path.same path) := by
  cases h : roots.locate? path with
  | none =>
    have hroot : roots.isRoot path = false := by simp [isRoot, h]
    rw [retire_of_not_isRoot hroot, List.eraseP_of_forall_not]
    intro root hmem hsame
    exact Bool.false_ne_true (hroot.symm.trans (isRoot_iff.mpr ⟨root, hmem, hsame⟩))
  | some index =>
    simp only [retire, h]
    exact filterMap_set_findIdx? h

theorem eraseP_eq_filter {p : Root → Bool} {live : List Root}
    (h : live.Pairwise fun a b => ¬ (p a = true ∧ p b = true)) :
    live.eraseP p = live.filter fun root => !p root := by
  induction live with
  | nil => rfl
  | cons root rest ih =>
    obtain ⟨hroot, hrest⟩ := List.pairwise_cons.mp h
    by_cases hp : p root = true
    · rw [List.eraseP_cons_of_pos hp, List.filter_cons_of_neg (by simp [hp])]
      refine (List.filter_eq_self.mpr fun other hmem => ?_).symm
      simpa using fun hother => hroot other hmem ⟨hp, hother⟩
    · rw [List.eraseP_cons_of_neg hp, List.filter_cons_of_pos (by simpa using hp), ih hrest]

theorem once_of_distinct {live : List Root}
    (hdistinct : live.Pairwise fun a b => a.path.same b.path = false) (path : Path) :
    live.Pairwise fun a b => ¬ (a.path.same path = true ∧ b.path.same path = true) := by
  refine hdistinct.imp ?_
  rintro a b hab ⟨ha, hb⟩
  exact Bool.false_ne_true (hab.symm.trans (Path.same_trans ha (Path.same_symm hb)))

section Tallies

theorem liveCount_eq_zero_iff : roots.liveCount = 0 ↔ roots.live = [] := List.length_eq_zero_iff

theorem liveCount_retire (h : roots.isRoot path = true) :
    (roots.retire path).2.liveCount + 1 = roots.liveCount := by
  obtain ⟨root, hroot, hsame⟩ := isRoot_iff.mp h
  have hpos := List.length_pos_of_mem hroot
  rw [liveCount, live_retire, liveCount, List.length_eraseP_of_mem hroot hsame]
  omega

theorem retiredCount_retire (h : roots.isRoot path = true) :
    (roots.retire path).2.retiredCount = roots.retiredCount + 1 := by
  obtain ⟨index, hindex⟩ := Option.isSome_iff_exists.mp h
  simp only [retire, hindex, retiredCount]

/-- What is taken from the live roots is added to the retired ones. -/
theorem liveCount_add_retiredCount_retire (roots : Roots) (path : Path) :
    (roots.retire path).2.liveCount + (roots.retire path).2.retiredCount =
      roots.liveCount + roots.retiredCount := by
  cases h : roots.isRoot path with
  | false => rw [retire_of_not_isRoot h]
  | true =>
    have hlive := liveCount_retire h
    have hretired := retiredCount_retire h
    omega

/-- The roots are exhausted by taking the last live one, and not otherwise. -/
theorem retire_fst_eq_exhausted_iff :
    (roots.retire path).1 = .exhausted ↔ roots.isRoot path = true ∧ roots.liveCount = 1 := by
  cases hroot : roots.isRoot path with
  | false => simp [retire_of_not_isRoot hroot]
  | true =>
    have hcount := liveCount_retire hroot
    cases hlocate : roots.locate? path with
    | none => simp [isRoot, hlocate] at hroot
    | some index =>
      simp only [retire, hlocate] at hcount ⊢
      split <;> simp <;> omega

end Tallies

section Several

/-- With the live roots at some paths retired, one after the other. -/
def retireAll (roots : Roots) (paths : List Path) : Roots :=
  paths.foldl (fun roots path => (roots.retire path).2) roots

/-- With all live roots retired that satisfy `p`. -/
def without (roots : Roots) (p : Root → Bool) : Roots :=
  ⟨roots.places.map (·.filter (!p ·)), roots.retired + roots.live.countP p⟩

theorem retireAll_append (roots : Roots) (first second : List Path) :
    roots.retireAll (first ++ second) = (roots.retireAll first).retireAll second :=
      List.foldl_append

theorem live_retireAll (roots : Roots) (paths : List Path) : (roots.retireAll paths).live =
    paths.foldl (fun live path => live.eraseP (·.path.same path)) roots.live := by
  induction paths generalizing roots with
  | nil => rfl
  | cons path rest ih =>
    have hrest : roots.retireAll (path :: rest) = (roots.retire path).2.retireAll rest := rfl
    rw [hrest, ih, live_retire, List.foldl_cons]

theorem live_without (roots : Roots) (p : Root → Bool) :
    (roots.without p).live = roots.live.filter fun root => !p root := by
  rw [live, without, live, List.filterMap_map, List.filter_filterMap]
  refine List.filterMap_congr fun place _ => ?_
  cases place <;> rfl

theorem places_without (roots : Roots) (p : Root → Bool) :
    (roots.without p).places = roots.places.map (·.filter (!p ·)) := rfl

theorem retired_without (roots : Roots) (p : Root → Bool) :
    (roots.without p).retired = roots.retired + roots.live.countP p := rfl

theorem without_without (roots : Roots) (p q : Root → Bool) :
    (roots.without p).without q = roots.without fun root => p root || q root := by
  have hplaces : ∀ place : Option Root, (place.filter (!p ·)).filter (!q ·) =
      place.filter fun root => !(p root || q root) := by
    intro place
    cases place with
    | none => rfl
    | some root => cases hp : p root <;> cases hq : q root <;> simp [Option.filter, hp, hq]
  have hcount : ∀ live : List Root, live.countP p + (live.filter (!p ·)).countP q =
      live.countP fun root => p root || q root := by
    intro live
    induction live with
    | nil => rfl
    | cons root rest ih =>
      cases hp : p root <;> cases hq : q root <;> simp [hp, hq] <;> omega
  refine (Roots.mk.injEq ..).mpr ⟨?_, ?_⟩
  · rw [places_without, List.map_map]
    exact List.map_congr_left fun place _ => hplaces place
  · rw [retired_without, live_without, Nat.add_assoc, hcount]

theorem map_filter_eq_self {p : Root → Bool} {places : List (Option Root)}
    (h : ∀ root ∈ places.filterMap id, p root = false) : places.map (·.filter (!p ·)) = places := by
  refine (List.map_congr_left fun place hplace => ?_).trans (List.map_id _)
  cases place with
  | none => rfl
  | some root => simp [h root (List.mem_filterMap.mpr ⟨some root, hplace, rfl⟩)]

theorem without_eq_self {p : Root → Bool} (h : ∀ root ∈ roots.live, p root = false) :
    roots.without p = roots := by
  refine (Roots.mk.injEq ..).mpr ⟨map_filter_eq_self h, ?_⟩
  rw [List.countP_eq_zero.mpr fun root hroot => by simp [h root hroot], Nat.add_zero]

theorem set_findIdx?_eq_map {p : Root → Bool} {places : List (Option Root)} {index : Nat}
    (h : places.findIdx? (fun place => place.any p) = some index)
    (honce : (places.filterMap id).Pairwise fun a b => ¬ (p a = true ∧ p b = true)) :
    places.set index none = places.map (·.filter (!p ·)) := by
  induction places generalizing index with
  | nil => simp at h
  | cons head rest ih =>
    rw [List.findIdx?_cons] at h
    split at h
    · next hp =>
      obtain rfl : 0 = index := Option.some.inj h
      cases head with
      | none => simp at hp
      | some root =>
        have hroot : p root = true := by simpa using hp
        have hrest := (List.pairwise_cons.mp honce).1
        have hsame : rest.map (·.filter (!p ·)) = rest := map_filter_eq_self fun other hother =>
          Bool.eq_false_iff.mpr fun hother' => hrest other hother ⟨hroot, hother'⟩
        rw [List.set_cons_zero, List.map_cons, hsame]
        simp [Option.filter, hroot]
    · next hp =>
      obtain ⟨before, hbefore, rfl⟩ := Option.map_eq_some_iff.mp h
      cases head with
      | none => simpa [Option.filter] using ih hbefore honce
      | some root =>
        have hroot : p root = false := by simpa using hp
        simpa [Option.filter, hroot] using ih hbefore (List.pairwise_cons.mp honce).2

/-- Where no two live roots have one path, retiring takes every live root at the path. -/
theorem retire_eq_without (hdistinct : roots.live.Pairwise fun a b => a.path.same b.path = false)
    (path : Path) : (roots.retire path).2 = roots.without (·.path.same path) := by
  have honce := once_of_distinct hdistinct path
  cases h : roots.locate? path with
  | none =>
    have hroot : roots.isRoot path = false := by simp [isRoot, h]
    rw [retire_of_not_isRoot hroot, without_eq_self]
    exact fun root hmem => Bool.eq_false_iff.mpr fun hsame =>
      Bool.false_ne_true (hroot.symm.trans (isRoot_iff.mpr ⟨root, hmem, hsame⟩))
  | some index =>
    have hroot : roots.isRoot path = true := by simp [isRoot, h]
    have hlive := liveCount_retire hroot
    have hcount := List.length_eq_countP_add_countP (fun root : Root => root.path.same path)
      (l := roots.live)
    rw [liveCount, liveCount, live_retire, eraseP_eq_filter honce, ← List.countP_eq_length_filter]
      at hlive
    simp only [retire, h]
    refine (Roots.mk.injEq ..).mpr ⟨set_findIdx?_eq_map h honce, ?_⟩
    simp only [Bool.not_eq_true, Bool.decide_eq_false] at hcount
    omega

theorem retireAll_eq_without (hdistinct : roots.live.Pairwise fun a b => a.path.same b.path = false)
    (paths : List Path) :
    roots.retireAll paths = roots.without fun root => paths.any root.path.same := by
  induction paths generalizing roots with
  | nil => exact (without_eq_self fun _ _ => rfl).symm
  | cons path rest ih =>
    have hrest : roots.retireAll (path :: rest) = (roots.retire path).2.retireAll rest := rfl
    have hpairwise : (roots.without (·.path.same path)).live.Pairwise fun a b =>
      a.path.same b.path = false := by
      rw [live_without]
      exact hdistinct.filter _
    rw [hrest, retire_eq_without hdistinct, ih hpairwise, without_without]
    rfl

end Several

section Shrinking

variable {rest last : Roots}

/-- At each place there is the root that was there before, or none any more. -/
def ShrinksTo (roots rest : Roots) : Prop :=
  List.Forall₂ (fun before after => after = before ∨ after = none) roots.places rest.places

namespace ShrinksTo

theorem refl (roots : Roots) : roots.ShrinksTo roots := List.forall₂_same.mpr fun _ _ => .inl rfl

theorem trans (h : roots.ShrinksTo rest) (h' : rest.ShrinksTo last) : roots.ShrinksTo last := by
  unfold ShrinksTo at *
  generalize roots.places = first, rest.places = second, last.places = third at h h'
  induction h generalizing third with
  | nil => exact h'
  | cons hplace _ ih =>
    obtain ⟨place, places, hnext, hrest, rfl⟩ := List.forall₂_cons_left_iff.mp h'
    refine .cons ?_ (ih _ hrest)
    rcases hnext with rfl | rfl
    · exact hplace
    · exact .inr rfl

theorem retire (roots : Roots) (path : Path) : roots.ShrinksTo (roots.retire path).2 := by
  have hset : ∀ (places : List (Option Root)) (index : Nat),
      List.Forall₂ (fun before after => after = before ∨ after = none) places
        (places.set index none) := by
    intro places
    induction places with
    | nil => exact fun _ => .nil
    | cons place places ih =>
      intro index
      cases index with
      | zero => exact .cons (.inr rfl) (List.forall₂_same.mpr fun _ _ => .inl rfl)
      | succ index => exact .cons (.inl rfl) (ih index)
  unfold Roots.retire
  split
  · exact refl roots
  · exact hset _ _

theorem live_sublist (h : roots.ShrinksTo rest) : rest.live.Sublist roots.live := by
  unfold ShrinksTo at h
  unfold live
  generalize roots.places = first, rest.places = second at h
  induction h with
  | nil => exact List.Sublist.refl _
  | @cons before after _ _ hplace _ ih =>
    rcases hplace with rfl | rfl
    · cases after with
      | none => exact ih
      | some root => exact ih.cons_cons root
    · cases before with
      | none => exact ih
      | some root => exact ih.cons root

theorem live_eq_nil (h : roots.ShrinksTo rest) (hempty : roots.live = []) : rest.live = [] :=
  List.sublist_nil.mp (hempty ▸ h.live_sublist)

end ShrinksTo

end Shrinking

end Roots

end TreeWatch
