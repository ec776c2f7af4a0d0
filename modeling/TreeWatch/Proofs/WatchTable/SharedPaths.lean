import TreeWatch.Proofs.Path.Order
import TreeWatch.Proofs.Path.Respelling
import TreeWatch.Proofs.WatchTable.Duplicates

/-!
# The listing of shared paths

Of the slots whose entries are under one path the lowest leads the others. The paths listed as
shared are those of the slots that lead at least one other, and they ascend, since no two of them
have the same components.
-/

namespace TreeWatch

namespace WatchTable

variable {table : WatchTable} {path : Path} {paths : List Path} {slot other : Nat} {a b : Entry}

/-- The lowest of two or more slots whose entries have the components of one path, which it spells
so. -/
structure Leads (table : WatchTable) (slot : Nat) (path : Path) : Prop where
  held : ∃ id, table.get? slot = some ⟨id, path⟩
  lowest : ∀ lower entry, lower < slot → table.get? lower = some entry →
    entry.path.components ≠ path.components
  others : ∃ higher entry, slot < higher ∧ table.get? higher = some entry ∧
    entry.path.components = path.components

/-! ## The order of the listing -/

theorem pairwise_insertOrdered (hpaths : paths.Pairwise fun p q => p.precedes q = true)
    (hnew : ∀ other ∈ paths, path.components ≠ other.components) :
    (insertOrdered path paths).Pairwise fun p q => p.precedes q = true := by
  induction paths with
  | nil => exact List.pairwise_singleton _ _
  | cons head rest ih =>
    obtain ⟨hhead, hrest⟩ := List.pairwise_cons.mp hpaths
    obtain ⟨hne, hnew⟩ := List.forall_mem_cons.mp hnew
    rw [insertOrdered]
    split_ifs with hbefore
    · exact .cons (List.forall_mem_cons.mpr ⟨hbefore, fun other hother =>
        Path.precedes_trans hbefore (hhead other hother)⟩) hpaths
    · have hafter := Path.precedes_of_not_precedes (Bool.eq_false_iff.mpr hbefore) hne
      refine .cons (fun other hother => ?_) (ih hrest hnew)
      obtain rfl | hother := List.mem_cons.mp ((insertOrdered_perm path rest).mem_iff.mp hother)
      · exact hafter
      · exact hhead other hother

theorem pairwise_foldr_insertOrdered (hpaths : (paths.map (·.components)).Nodup) :
    (paths.foldr insertOrdered []).Pairwise fun p q => p.precedes q = true := by
  induction paths with
  | nil => exact .nil
  | cons path rest ih =>
    obtain ⟨hpath, hrest⟩ := List.nodup_cons.mp hpaths
    refine pairwise_insertOrdered (ih hrest) fun other hother heq => hpath ?_
    exact List.mem_map.mpr ⟨other, (foldr_insertOrdered_perm rest).mem_iff.mp hother, heq.symm⟩

theorem pairwise_sharedPaths (table : WatchTable) :
    table.sharedPaths.Pairwise fun p q => p.precedes q = true := by
  rw [sharedPaths_eq]
  refine pairwise_foldr_insertOrdered ?_
  rw [List.map_map]
  exact nodup_components_beginnings _

theorem nodup_components_sharedPaths (table : WatchTable) :
    (table.sharedPaths.map (·.components)).Nodup := by
  rw [((sharedPaths_perm table).map _).nodup_iff, List.map_map]
  exact nodup_components_beginnings _

/-! ## What is listed -/

theorem lt_iff_of_active {i j : Nat} (hi : table.active[i]? = some (slot, a))
    (hj : table.active[j]? = some (other, b)) : i < j ↔ slot < other := by
  have hordered {i j slot other : Nat} {a b : Entry} (hi : table.active[i]? = some (slot, a))
      (hj : table.active[j]? = some (other, b)) (hlt : i < j) : slot < other := by
    obtain ⟨hlti, hi⟩ := List.getElem?_eq_some_iff.mp hi
    obtain ⟨hltj, hj⟩ := List.getElem?_eq_some_iff.mp hj
    have h := List.pairwise_iff_getElem.mp (List.pairwise_map.mp table.pairwise_active) i j
      hlti hltj hlt
    rwa [hi, hj] at h
  refine ⟨hordered hi hj, fun hlt => ?_⟩
  obtain h | rfl | h := Nat.lt_trichotomy i j
  · exact h
  · rw [hi, Option.some.injEq, Prod.mk.injEq] at hj
    exact absurd hlt (hj.1 ▸ Nat.lt_irrefl _)
  · exact absurd hlt (Nat.lt_asymm (hordered hj hi h))

theorem exists_active_iff :
    (∃ i : Nat, table.active[i]? = some (slot, a)) ↔ table.get? slot = some a :=
  List.mem_iff_getElem?.symm.trans mem_active_iff

theorem getElem?_map_path_active {i : Nat} : (table.active.map (·.2.path))[i]? = some path ↔
    ∃ slot id, table.active[i]? = some (slot, ⟨id, path⟩) := by
  rw [List.getElem?_map, Option.map_eq_some_iff]
  constructor
  · rintro ⟨⟨slot, id, path⟩, hactive, rfl⟩
    exact ⟨slot, id, hactive⟩
  · rintro ⟨slot, id, hactive⟩
    exact ⟨_, hactive, rfl⟩

/-- The paths that begin a group are those of the slots that lead others. -/
theorem mem_sharedPaths_iff : path ∈ table.sharedPaths ↔ ∃ slot, table.Leads slot path := by
  rw [(sharedPaths_perm table).mem_iff, ← map_path_active, List.mem_map]
  constructor
  · rintro ⟨⟨path, i⟩, hbegins, rfl⟩
    obtain ⟨hpath, hlowest, j, other, hlt, hother, heq⟩ := mem_beginnings_iff.mp hbegins
    obtain ⟨slot, id, hslot⟩ := getElem?_map_path_active.mp hpath
    obtain ⟨higher, id', hhigher⟩ := getElem?_map_path_active.mp hother
    refine ⟨slot, ⟨id, exists_active_iff.mp ⟨i, hslot⟩⟩, fun lower entry hlower hentry => ?_,
      higher, _, (lt_iff_of_active hslot hhigher).mp hlt, exists_active_iff.mp ⟨j, hhigher⟩,
      heq.symm⟩
    obtain ⟨k, hk⟩ := exists_active_iff.mpr hentry
    exact (hlowest k entry.path ((lt_iff_of_active hk hslot).mpr hlower)
      (getElem?_map_path_active.mpr ⟨lower, entry.id, hk⟩)).symm
  · rintro ⟨slot, ⟨id, hslot⟩, hlowest, higher, entry, hlt, hentry, heq⟩
    obtain ⟨i, hi⟩ := exists_active_iff.mpr hslot
    obtain ⟨j, hj⟩ := exists_active_iff.mpr hentry
    refine ⟨(path, i), mem_beginnings_iff.mpr ⟨getElem?_map_path_active.mpr ⟨slot, id, hi⟩,
      fun k other hk hother => ?_, j, entry.path, (lt_iff_of_active hi hj).mpr hlt,
      getElem?_map_path_active.mpr ⟨higher, entry.id, hj⟩, heq.symm⟩, rfl⟩
    obtain ⟨lower, id', hlower⟩ := getElem?_map_path_active.mp hother
    exact (hlowest lower _ ((lt_iff_of_active hlower hi).mp hk) (exists_active_iff.mp ⟨k,
      hlower⟩)).symm

/-- The slot that a path is looked up to, where a higher one has its components too, leads the
others. -/
theorem leads_of_slotAt? (hslot : table.slotAt? path = some slot) (hlt : slot < other)
    (hother : table.get? other = some b) (heq : b.path.components = path.components) :
    ∃ first, table.Leads slot first ∧ first.components = path.components := by
  obtain ⟨⟨⟨id, first⟩, hget, hsame⟩, hlowest⟩ := findSlot?_eq_some_iff.mp hslot
  have hfirst : first.components = path.components := beq_iff_eq.mp hsame
  refine ⟨first, ⟨⟨id, hget⟩, fun lower entry hlower hentry h => ?_, other, b, hlt, hother,
    heq.trans hfirst.symm⟩, hfirst⟩
  exact Bool.false_ne_true ((hlowest lower entry hlower hentry).symm.trans
    (beq_iff_eq.mpr (h.trans hfirst)))

theorem exists_mem_sharedPaths (hslot : table.get? slot = some a)
    (hother : table.get? other = some b) (hne : slot ≠ other)
    (heq : a.path.components = b.path.components) :
    ∃ path ∈ table.sharedPaths, path.components = a.path.components := by
  wlog hlt : slot < other generalizing slot other a b
  · rw [heq]
    exact this hother hslot hne.symm heq.symm (by omega)
  have hheld : (table.slotAt? a.path).isSome = true :=
    holdsPath_iff.mpr ⟨a, mem_entries_of_get? hslot, Path.same_refl _⟩
  obtain ⟨first, hfirst⟩ := Option.isSome_iff_exists.mp hheld
  have hle : first ≤ slot := by
    refine Nat.le_of_not_lt fun hlower => ?_
    have h := (findSlot?_eq_some_iff.mp hfirst).2 slot a hlower hslot
    exact Bool.false_ne_true (h.symm.trans (Path.same_refl _))
  obtain ⟨path, hleads, hpath⟩ :=
    leads_of_slotAt? hfirst (Nat.lt_of_le_of_lt hle hlt) hother heq.symm
  exact ⟨path, mem_sharedPaths_iff.mpr ⟨first, hleads⟩, hpath⟩

/-- Nothing is listed exactly if every entry is found under its path. -/
theorem sharedPaths_eq_nil_iff_slotAt? : table.sharedPaths = [] ↔
    ∀ slot entry, table.get? slot = some entry → table.slotAt? entry.path = some slot := by
  constructor
  · intro hnil slot entry hentry
    refine findSlot?_eq_some_iff.mpr ⟨⟨entry, hentry, Path.same_refl _⟩,
      fun lower found hlower hfound => ?_⟩
    refine Bool.eq_false_iff.mpr fun hsame => ?_
    obtain ⟨path, hpath, -⟩ := exists_mem_sharedPaths hfound hentry (Nat.ne_of_lt hlower)
      (beq_iff_eq.mp hsame)
    exact List.not_mem_nil (hnil ▸ hpath)
  · intro hfound
    refine List.eq_nil_iff_forall_not_mem.mpr fun path hpath => ?_
    obtain ⟨slot, ⟨id, hslot⟩, -, higher, entry, hlt, hentry, heq⟩ := mem_sharedPaths_iff.mp hpath
    have hlowest := (findSlot?_eq_some_iff.mp (hfound higher entry hentry)).2 slot _ hlt hslot
    exact Bool.false_ne_true (hlowest.symm.trans (beq_iff_eq.mpr heq.symm))

/-- The paths listed as shared ascend component by component, and are those of the slots that lead
others. So each path that two slots spell, alike or not, is listed once, and free slots have no
say. -/
theorem sharedPaths_lists_each_group_once (table : WatchTable) :
    (table.sharedPaths.Pairwise fun p q => List.Lex Component.Precedes p.components q.components) ∧
    (∀ path, path ∈ table.sharedPaths ↔ ∃ slot, table.Leads slot path) ∧
    (∀ slot other a b, slot ≠ other → table.get? slot = some a → table.get? other = some b →
      Path.Spellings a.path b.path → ∃! path, path ∈ table.sharedPaths ∧
        path.components = a.path.components) ∧
    (table.sharedPaths = [] ↔
      ∀ slot entry, table.get? slot = some entry → table.slotAt? entry.path = some slot) ∧
    ∀ other : WatchTable, other.entries = table.entries →
      other.sharedPaths = table.sharedPaths := by
  refine ⟨table.pairwise_sharedPaths.imp Path.precedes_iff.mp, fun _ => mem_sharedPaths_iff,
    fun slot other a b hne hslot hother hspellings => ?_, sharedPaths_eq_nil_iff_slotAt?,
    fun other heq => ?_⟩
  · obtain ⟨path, hpath, hcomponents⟩ :=
      exists_mem_sharedPaths hslot hother hne (Path.spellings_iff.mp hspellings)
    exact ⟨path, ⟨hpath, hcomponents⟩, fun q hq =>
      List.inj_on_of_nodup_map table.nodup_components_sharedPaths hq.1 hpath
        (hq.2.trans hcomponents.symm)⟩
  · rw [sharedPaths_eq, sharedPaths_eq, heq]

/-- Two paths that two slots each spell in their own way, between free slots. -/
theorem sharedPaths_lists_each_group_once_of_spellings :
    let table : WatchTable := ⟨[none, some ⟨⟨1⟩, .ofString "/b//x"⟩, some ⟨⟨2⟩, .ofString "/a"⟩,
      some ⟨⟨3⟩, .ofString "/b/./x/"⟩, none, some ⟨⟨4⟩, .ofString "/a/"⟩], 6, 1, by decide⟩
    Path.Spellings (.ofString "/b//x") (.ofString "/b/./x/") ∧
      (∃! path, path ∈ table.sharedPaths ∧ path.components = (Path.ofString "/b//x").components) ∧
      table.sharedPaths = [.ofString "/a", .ofString "/b//x"] ∧
      table.slotAt? (.ofString "/b/./x/") = some 1 := by
  intro table
  have hspellings : Path.Spellings (.ofString "/b//x") (.ofString "/b/./x/") :=
    Path.spellings_iff.mpr (by decide)
  obtain ⟨-, -, honce, -⟩ := sharedPaths_lists_each_group_once table
  exact ⟨hspellings, honce 1 3 _ _ (by decide) rfl rfl hspellings, by decide, by decide⟩

end WatchTable

end TreeWatch
