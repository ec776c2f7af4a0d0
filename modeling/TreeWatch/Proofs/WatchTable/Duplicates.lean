import Mathlib.Data.List.NodupEquivFin
import Mathlib.Data.Finset.Card
import TreeWatch.Proofs.WatchTable.Entries

/-!
# Paths that entries share

Entries under paths with the same components form a group, and each group of two or more is listed
once, by its first entry. So as many paths are listed as there are component lists that more than
one entry has.
-/

namespace TreeWatch

namespace WatchTable

variable {table : WatchTable} {path : Path} {paths : List Path} {i : Nat}

/-- The paths that no path before is like, with their positions. -/
def firsts (paths : List Path) : List (Path × Nat) :=
  paths.zipIdx.filter fun (path, i) => !(paths.take i).any path.same

/-- The paths at which a group of two or more like ones begins, with their positions. -/
def beginnings (paths : List Path) : List (Path × Nat) :=
  paths.zipIdx.filter fun (path, i) =>
    !(paths.take i).any path.same && (paths.drop (i + 1)).any path.same

section Counting

variable {counts : List (Path × Nat)}

theorem firsts_snoc (paths : List Path) (path : Path) : firsts (paths ++ [path]) =
    firsts paths ++ if paths.any path.same then [] else [(path, paths.length)] := by
  have htake : ∀ item ∈ paths.zipIdx, (paths ++ [path]).take item.2 = paths.take item.2 := by
    rintro ⟨other, i⟩ hitem
    obtain ⟨-, hlt, -⟩ := List.mem_zipIdx hitem
    exact List.take_append_of_le_length (by simp only at hlt ⊢; omega)
  rw [firsts, List.zipIdx_append, List.filter_append, firsts]
  congr 1
  · exact List.filter_congr fun item hitem => by simp only [htake item hitem]
  · cases hany : paths.any path.same <;> simp [hany]

theorem any_firsts (paths : List Path) (path : Path) :
    (firsts paths).any (·.1.same path) = paths.any path.same := by
  induction paths using List.reverseRecOn with
  | nil => rfl
  | append_singleton paths last ih =>
    rw [firsts_snoc, List.any_append, ih, List.any_append]
    by_cases hany : paths.any last.same = true
    · rw [if_pos hany]
      cases hsame : path.same last with
      | false => simp [hsame]
      | true =>
        obtain ⟨other, hother, hlike⟩ := List.any_eq_true.mp hany
        have hpath : paths.any path.same = true :=
          List.any_eq_true.mpr ⟨other, hother, Path.same_trans hsame hlike⟩
        simp [hpath]
    · rw [if_neg hany]
      simp [Path.same_comm path last]

theorem pairwise_firsts (paths : List Path) :
    (firsts paths).Pairwise fun a b => a.1.same b.1 = false := by
  induction paths using List.reverseRecOn with
  | nil => exact .nil
  | append_singleton paths path ih =>
    rw [firsts_snoc]
    by_cases hany : paths.any path.same = true
    · rwa [if_pos hany, List.append_nil]
    · have hnew : ∀ item ∈ firsts paths, item.1.same path = false := fun item hitem =>
        Bool.eq_false_iff.mpr fun hsame => hany <| any_firsts paths path ▸
          List.any_eq_true.mpr ⟨item, hitem, hsame⟩
      rw [if_neg hany, List.pairwise_append]
      exact ⟨ih, List.pairwise_singleton _ _, fun item hitem last hlast =>
        List.mem_singleton.mp hlast ▸ hnew item hitem⟩

/-- Where no two paths counted so far are alike, a path adds to the count of the one it is like, or
is counted as a new one. -/
theorem countPath_eq (hcounts : counts.Pairwise fun a b => a.1.same b.1 = false) (path : Path) :
    countPath counts path =
      (counts.map fun item => (item.1, item.2 + if item.1.same path then 1 else 0)) ++
        if counts.any (·.1.same path) then [] else [(path, 1)] := by
  induction counts with
  | nil => rfl
  | cons head rest ih =>
    obtain ⟨first, count⟩ := head
    obtain ⟨hfirst, hrest⟩ := List.pairwise_cons.mp hcounts
    rw [countPath]
    by_cases hsame : first.same path = true
    · have hkept : ∀ item ∈ rest, (item.1, item.2 + if item.1.same path then 1 else 0) = item := by
        rintro ⟨other, n⟩ hother
        have hdiffer : other.same path = false := Bool.eq_false_iff.mpr fun hlike =>
          Bool.false_ne_true ((hfirst _ hother).symm.trans
            (Path.same_trans hsame (Path.same_symm hlike)))
        simp [hdiffer]
      simp [hsame, List.map_congr_left hkept]
    · simp only [hsame, ih hrest, List.any_cons, Bool.false_eq_true, ↓reduceIte, Nat.add_zero,
        Bool.false_or, List.map_cons, List.cons_append]

/-- The counting pass has each first path with the number of paths like it. -/
theorem pathCounts_eq (paths : List Path) :
    pathCounts paths = (firsts paths).map fun item => (item.1, paths.countP item.1.same) := by
  induction paths using List.reverseRecOn with
  | nil => rfl
  | append_singleton paths path ih =>
    have hdistinct : (pathCounts paths).Pairwise fun a b => a.1.same b.1 = false := by
      rw [ih]
      exact List.pairwise_map.mpr (pairwise_firsts paths)
    have hany : (pathCounts paths).any (·.1.same path) = paths.any path.same := by
      rw [ih, List.any_map]
      exact any_firsts paths path
    rw [pathCounts, List.foldl_concat, ← pathCounts, countPath_eq hdistinct, hany, ih, List.map_map,
      firsts_snoc, List.map_append]
    congr 1
    · exact List.map_congr_left fun item _ => by simp [List.countP_append]
    · by_cases hlike : paths.any path.same = true
      · rw [if_pos hlike, if_pos hlike, List.map_nil]
      · have hnone : paths.countP path.same = 0 := List.countP_eq_zero.mpr fun other hother hsame =>
          hlike (List.any_eq_true.mpr ⟨other, hother, hsame⟩)
        rw [if_neg hlike, if_neg hlike, List.map_singleton, List.countP_append, hnone]
        simp

/-- The paths counted more than once are those at which a group begins. -/
theorem map_filter_pathCounts (paths : List Path) :
    ((pathCounts paths).filter (1 < ·.2)).map (·.1) = (beginnings paths).map (·.1) := by
  have hrepeats : ∀ item ∈ firsts paths, decide (1 < paths.countP item.1.same) =
      (paths.drop (item.2 + 1)).any item.1.same := by
    rintro ⟨path, i⟩ hitem
    obtain ⟨hmem, hfirst⟩ := List.mem_filter.mp hitem
    obtain ⟨hlt, hpath⟩ := List.getElem?_eq_some_iff.mp (List.mem_zipIdx_iff_getElem?.mp hmem)
    have hbefore : (paths.take i).countP path.same = 0 :=
      List.countP_eq_zero.mpr fun other hother hsame => by
      simp only [Bool.not_eq_true', List.any_eq_false] at hfirst
      exact hfirst other hother hsame
    have hsplit : paths.countP path.same = (paths.drop (i + 1)).countP path.same + 1 := by
      conv_lhs => rw [← List.take_append_drop i paths]
      rw [List.countP_append, hbefore, List.drop_eq_getElem_cons hlt, List.countP_cons,
        Nat.zero_add]
      simp only at hpath
      simp [hpath]
    rw [hsplit, Bool.eq_iff_iff, decide_eq_true_eq, List.any_eq_true, Nat.lt_add_left_iff_pos,
      List.countP_pos_iff]
  rw [pathCounts_eq, List.filter_map, List.map_map]
  have hgroup : beginnings paths =
      (firsts paths).filter fun item => (paths.drop (item.2 + 1)).any item.1.same := by
    rw [firsts, List.filter_filter, beginnings]
    exact List.filter_congr fun item _ => Bool.and_comm _ _
  rw [hgroup, ← List.filter_congr hrepeats]
  rfl

end Counting

theorem mem_beginnings_iff : (path, i) ∈ beginnings paths ↔ paths[i]? = some path ∧
    (∀ j other, j < i → paths[j]? = some other → path.components ≠ other.components) ∧
    ∃ j other, i < j ∧ paths[j]? = some other ∧ path.components = other.components := by
  have hbefore : (paths.take i).any path.same = false ↔
      ∀ j other, j < i → paths[j]? = some other → path.components ≠ other.components := by
    rw [List.any_eq_false]
    constructor
    · intro h j other hj hother heq
      obtain ⟨hlt, rfl⟩ := List.getElem?_eq_some_iff.mp hother
      exact h _ (List.mem_take_iff_getElem.mpr ⟨j, by omega, rfl⟩) (beq_iff_eq.mpr heq)
    · intro h other hother hsame
      obtain ⟨j, hj, rfl⟩ := List.mem_take_iff_getElem.mp hother
      exact h j _ (by omega) (List.getElem?_eq_getElem _) (beq_iff_eq.mp hsame)
  have hbehind : (paths.drop (i + 1)).any path.same = true ↔
      ∃ j other, i < j ∧ paths[j]? = some other ∧ path.components = other.components := by
    rw [List.any_eq_true]
    constructor
    · rintro ⟨other, hother, hsame⟩
      obtain ⟨j, hj, rfl⟩ := List.mem_drop_iff_getElem.mp hother
      exact ⟨i + 1 + j, _, by omega, List.getElem?_eq_getElem _, beq_iff_eq.mp hsame⟩
    · rintro ⟨j, other, hj, hother, heq⟩
      obtain ⟨hlt, rfl⟩ := List.getElem?_eq_some_iff.mp hother
      refine ⟨_, List.mem_drop_iff_getElem.mpr ⟨j - (i + 1), by omega, ?_⟩, beq_iff_eq.mpr heq⟩
      congr 1
      omega
  rw [beginnings, List.mem_filter, List.mem_zipIdx_iff_getElem?, Bool.and_eq_true,
    Bool.not_eq_true', hbefore, hbehind]

theorem nodup_components_beginnings (paths : List Path) :
    ((beginnings paths).map (·.1.components)).Nodup := by
  have hascending : (beginnings paths).Pairwise fun a b => a.2 < b.2 := by
    have hrange : (paths.zipIdx.map Prod.snd).Pairwise (· < ·) := by
      rw [List.zipIdx_map_snd]
      exact List.pairwise_lt_range'
    exact (List.pairwise_map.mp hrange).sublist List.filter_sublist
  rw [List.Nodup, List.pairwise_map]
  refine hascending.imp_of_mem fun {a b} ha hb hlt heq => ?_
  obtain ⟨hfirst, -, -⟩ := mem_beginnings_iff.mp ha
  obtain ⟨-, hbefore, -⟩ := mem_beginnings_iff.mp hb
  exact hbefore a.2 a.1 hlt hfirst heq.symm

theorem mem_components_beginnings_iff {components : List Component} :
    components ∈ (beginnings paths).map (·.1.components) ↔
      2 ≤ (paths.map (·.components)).count components := by
  have htwice : List.Duplicate components (paths.map (·.components)) ↔
      2 ≤ (paths.map (·.components)).count components :=
    List.duplicate_iff_sublist.trans (@List.replicate_sublist_iff _ _ _ 2 components _)
  rw [← htwice, List.duplicate_iff_exists_distinct_get, List.mem_map]
  constructor
  · rintro ⟨⟨path, i⟩, hmem, rfl⟩
    obtain ⟨hpath, -, j, other, hlt, hother, heq⟩ := mem_beginnings_iff.mp hmem
    obtain ⟨hi, rfl⟩ := List.getElem?_eq_some_iff.mp hpath
    obtain ⟨hj, rfl⟩ := List.getElem?_eq_some_iff.mp hother
    exact ⟨⟨i, by simpa using hi⟩, ⟨j, by simpa using hj⟩, hlt, by simp, by simpa using heq⟩
  · rintro ⟨⟨m, hm⟩, ⟨n, hn⟩, hlt, hfirst, hsecond⟩
    rw [List.length_map] at hm hn
    simp only [List.get_eq_getElem, List.getElem_map] at hfirst hsecond
    -- The group begins at the first position at all that has these components.
    let first := fun (i : Nat) => ∃ path : Path, paths[i]? = some path ∧
      path.components = components
    have hexists : ∃ i, first i := ⟨m, _, List.getElem?_eq_getElem hm, hfirst.symm⟩
    classical
    obtain ⟨path, hpath, rfl⟩ := Nat.find_spec hexists
    have hle : Nat.find hexists ≤ m :=
      Nat.find_min' hexists ⟨_, List.getElem?_eq_getElem hm, hfirst.symm⟩
    refine ⟨(path, Nat.find hexists),
      mem_beginnings_iff.mpr ⟨hpath, fun j other hj hother heq => ?_, n, _,
        Nat.lt_of_le_of_lt hle hlt, List.getElem?_eq_getElem hn, hsecond⟩, rfl⟩
    exact Nat.find_min hexists hj ⟨other, hother, heq.symm⟩

theorem insertOrdered_perm (path : Path) (paths : List Path) :
    (insertOrdered path paths).Perm (path :: paths) := by
  induction paths with
  | nil => exact .refl _
  | cons head rest ih =>
    rw [insertOrdered]
    split
    · exact .refl _
    · exact (ih.cons head).trans (.swap path head rest)

theorem foldr_insertOrdered_perm (paths : List Path) :
    (paths.foldr insertOrdered []).Perm paths := by
  induction paths with
  | nil => exact .refl _
  | cons path rest ih => exact (insertOrdered_perm path _).trans (ih.cons path)

theorem sharedPaths_eq (table : WatchTable) : table.sharedPaths =
    ((beginnings (table.entries.map (·.path))).map (·.1)).foldr insertOrdered [] := by
  rw [sharedPaths, repeated, map_filter_pathCounts, map_path_active]

theorem sharedPaths_perm (table : WatchTable) :
    table.sharedPaths.Perm ((beginnings (table.entries.map (·.path))).map (·.1)) := by
  rw [sharedPaths_eq]
  exact foldr_insertOrdered_perm _

/-- No path is shared exactly if the paths of the entries are pairwise different places. -/
theorem sharedPaths_eq_nil_iff :
    table.sharedPaths = [] ↔ table.entries.Pairwise fun a b => a.path.same b.path = false := by
  have hnodup : (table.entries.map (·.path.components)).Nodup ↔
      table.entries.Pairwise fun a b => a.path.same b.path = false := by
    rw [List.Nodup, List.pairwise_map]
    simp only [Path.same, beq_eq_false_iff_ne]
  have hgroups : (beginnings (table.entries.map (·.path))).map (·.1.components) = [] ↔
      (table.entries.map (·.path.components)).Nodup := by
    rw [List.eq_nil_iff_forall_not_mem, List.nodup_iff_count_le_one]
    refine forall_congr' fun components => ?_
    rw [mem_components_beginnings_iff, List.map_map, Nat.not_le, Nat.lt_succ_iff]
    rfl
  rw [← hnodup, ← hgroups, List.map_eq_nil_iff, ← List.length_eq_zero_iff,
    (sharedPaths_perm table).length_eq, List.length_map, List.length_eq_zero_iff]

/-- The component lists that two or more entries have. -/
def heldTwice (table : WatchTable) : Finset (List Component) :=
  let held := table.entries.map (·.path.components)
  held.toFinset.filter fun components => 2 ≤ held.count components

theorem length_sharedPaths (table : WatchTable) :
    table.sharedPaths.length = table.heldTwice.card := by
  have hheld : (table.entries.map (·.path)).map (·.components) =
      table.entries.map (·.path.components) := by
    rw [List.map_map]
    rfl
  have hset : table.heldTwice =
      ((beginnings (table.entries.map (·.path))).map (·.1.components)).toFinset := by
    ext components
    rw [heldTwice, Finset.mem_filter, List.mem_toFinset, List.mem_toFinset,
      mem_components_beginnings_iff, hheld]
    refine ⟨And.right, fun h => ⟨List.count_pos_iff.mp (by omega), h⟩⟩
  rw [hset, List.toFinset_card_of_nodup (nodup_components_beginnings _),
    (sharedPaths_perm table).length_eq, List.length_map, List.length_map]

end WatchTable

end TreeWatch
