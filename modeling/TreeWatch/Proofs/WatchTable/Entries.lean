import TreeWatch.WatchTable.Basic
import Mathlib.Data.List.Basic
import Mathlib.Data.List.Nodup

/-!
# The entries of a watch table

A table seen as the list of its entries, slots left out. Each operation is said as what it does to
that list: an entry put in or freed is one more or one less, moving changes paths in place, and
look-ups find an entry exactly if there is one.
-/

namespace TreeWatch

namespace WatchTable

variable {table next : WatchTable} {id : WatchId} {path : Path} {slot : Nat} {entry : Entry}

/-- The entries in slot order. -/
def entries (table : WatchTable) : List Entry := table.slots.filterMap (·)

theorem map_active (table : WatchTable) : table.active.map (·.2) = table.entries := by
  have h : ∀ (slots : List (Option Entry)) (start : Nat),
      ((slots.zipIdx start).filterMap fun item => item.1.map (item.2, ·)).map (·.2) =
        slots.filterMap (·) := by
    intro slots
    induction slots with
    | nil => intro start; rfl
    | cons head rest ih =>
      intro start
      cases head with
      | none => simpa using ih (start + 1)
      | some entry => simpa using ih (start + 1)
  exact h table.slots 0

theorem map_path_active (table : WatchTable) :
    table.active.map (·.2.path) = table.entries.map (·.path) := by
  rw [← map_active, List.map_map]
  rfl

theorem size_eq (table : WatchTable) : table.size = table.entries.length := by
  rw [size, ← map_active, List.length_map]

theorem mem_entries_of_get? (h : table.get? slot = some entry) : entry ∈ table.entries := by
  have hslot : table.slots[slot]? = some (some entry) := Option.join_eq_some_iff.mp h
  exact List.mem_filterMap.mpr ⟨some entry, List.mem_of_getElem? hslot, rfl⟩

theorem mem_active_iff : (slot, entry) ∈ table.active ↔ table.get? slot = some entry := by
  rw [active, List.mem_filterMap, get?]
  constructor
  · rintro ⟨⟨found, index⟩, hmem, heq⟩
    rw [List.mem_zipIdx_iff_getElem?] at hmem
    obtain ⟨entry', rfl, hpair⟩ := Option.map_eq_some_iff.mp heq
    obtain ⟨rfl, rfl⟩ := Prod.mk.inj hpair
    rw [hmem, Option.join_some]
  · intro h
    exact ⟨(some entry, slot), List.mem_zipIdx_iff_getElem?.mpr (Option.join_eq_some_iff.mp h), rfl⟩

section Lookup

variable {p : Entry → Bool}

theorem findSlot?_eq_some_iff : table.findSlot? p = some slot ↔
    (∃ entry, table.get? slot = some entry ∧ p entry = true) ∧
      ∀ lower entry, lower < slot → table.get? lower = some entry → p entry = false := by
  have hget {i : Nat} {entry : Entry} :
      table.get? i = some entry ↔ ∃ h : i < table.slots.length, table.slots[i] = some entry := by
    rw [get?, Option.join_eq_some_iff, List.getElem?_eq_some_iff]
  rw [findSlot?, List.findIdx?_eq_some_iff_getElem]
  constructor
  · rintro ⟨hlt, hp, hlower⟩
    cases hentry : table.slots[slot] with
    | none => simp [hentry] at hp
    | some entry =>
      refine ⟨⟨entry, hget.mpr ⟨hlt, hentry⟩, by simpa [hentry] using hp⟩,
        fun lower other hlt' hother => ?_⟩
      obtain ⟨_, hother⟩ := hget.mp hother
      simpa [hother] using hlower lower hlt'
  · rintro ⟨⟨entry, hentry, hp⟩, hlower⟩
    obtain ⟨hlt, hentry⟩ := hget.mp hentry
    refine ⟨hlt, by rwa [hentry, Option.any_some], fun lower hlt' => ?_⟩
    cases hother : table.slots[lower] with
    | none => simp
    | some other => simpa using hlower lower other hlt' (hget.mpr ⟨_, hother⟩)

theorem findSlot?_eq_some (h : table.findSlot? p = some slot) :
    ∃ entry, table.get? slot = some entry ∧ p entry = true :=
  (findSlot?_eq_some_iff.mp h).1

theorem findSlot?_eq_none_iff :
    table.findSlot? p = none ↔ ∀ entry ∈ table.entries, p entry = false := by
  rw [findSlot?, List.findIdx?_eq_none_iff]
  constructor
  · intro h entry hentry
    obtain ⟨found, hfound, rfl⟩ := List.mem_filterMap.mp hentry
    exact h (some entry) hfound
  · intro h found hfound
    cases found with
    | none => rfl
    | some entry => exact h entry (List.mem_filterMap.mpr ⟨_, hfound, rfl⟩)

theorem slotOf?_isSome_iff : (table.slotOf? id).isSome = true ↔
    id.isUnbound = false ∧ ∃ entry ∈ table.entries, entry.id = id := by
  unfold slotOf?
  cases id.isUnbound with
  | true => simp
  | false =>
    rw [if_neg (by simp), Option.isSome_iff_ne_none, ne_eq, findSlot?_eq_none_iff]
    simp

theorem slotOf?_eq_some (h : table.slotOf? id = some slot) :
    ∃ entry, table.get? slot = some entry ∧ entry.id = id := by
  unfold slotOf? at h
  split at h
  · exact absurd h (by simp)
  · obtain ⟨entry, hentry, hid⟩ := findSlot?_eq_some h
    exact ⟨entry, hentry, beq_iff_eq.mp hid⟩

theorem slotOf?_eq_none_iff : table.slotOf? id = none ↔
    id.isUnbound = true ∨ ∀ entry ∈ table.entries, entry.id ≠ id := by
  rw [← Option.not_isSome_iff_eq_none, slotOf?_isSome_iff]
  cases id.isUnbound <;> simp

theorem eq_of_mem_entries {first second : Path} (hids : (table.entries.map (·.id)).Nodup)
    (h : ⟨id, first⟩ ∈ table.entries) (h' : ⟨id, second⟩ ∈ table.entries) : first = second :=
  (Entry.mk.inj (List.inj_on_of_nodup_map hids h h' rfl)).2

theorem exists_slotOf? (hids : (table.entries.map (·.id)).Nodup) (hentry : entry ∈ table.entries)
    (hbound : entry.id.isUnbound = false) :
    ∃ slot, table.slotOf? entry.id = some slot ∧ table.get? slot = some entry := by
  obtain ⟨slot, hslot⟩ := Option.isSome_iff_exists.mp
    (slotOf?_isSome_iff.mpr ⟨hbound, entry, hentry, rfl⟩)
  obtain ⟨found, hfound, hid⟩ := slotOf?_eq_some hslot
  obtain rfl : found = entry := List.inj_on_of_nodup_map hids (mem_entries_of_get? hfound)
    hentry hid
  exact ⟨slot, hslot, hfound⟩

theorem slotAt?_eq_some (h : table.slotAt? path = some slot) :
    ∃ entry, table.get? slot = some entry ∧ entry.path.same path = true :=
  findSlot?_eq_some h

theorem holdsPath_iff : table.holdsPath path = true ↔
    ∃ entry ∈ table.entries, entry.path.same path = true := by
  rw [holdsPath, slotAt?, Option.isSome_iff_ne_none, ne_eq, findSlot?_eq_none_iff]
  simp

end Lookup

section Change

theorem perm_filterMap_set {slots : List (Option Entry)} (h : slots[slot]? = some none) :
    ((slots.set slot (some entry)).filterMap (·)).Perm (entry :: slots.filterMap (·)) := by
  induction slots generalizing slot with
  | nil => simp at h
  | cons head rest ih =>
    cases slot with
    | zero =>
      obtain rfl : head = none := by simpa using h
      simp
    | succ slot =>
      have hrest := ih (by simpa using h)
      cases head with
      | none => simpa using hrest
      | some first => simpa using (hrest.cons first).trans (List.Perm.swap entry first _)

theorem isSome_of_no_freeSlot (h : table.freeSlot? = none) :
    ∀ found ∈ table.slots, found.isSome = true :=
  fun found hfound => by simpa using List.findIdx?_eq_none_iff.mp h found hfound

theorem exists_of_freeSlot? (h : table.freeSlot? = some slot) :
    ∃ hlt : slot < table.slots.length, table.slots[slot] = none ∧
      ∀ lower (hlower : lower < slot), (table.slots[lower]).isSome = true := by
  obtain ⟨hlt, hfree, hbefore⟩ := List.findIdx?_eq_some_iff_getElem.mp h
  refine ⟨hlt, Option.isNone_iff_eq_none.mp hfree, fun lower hlower => ?_⟩
  simpa [Option.isSome_iff_ne_none] using hbefore lower hlower

/-- An insertion takes the first free slot, or every slot is in use and it takes the first of one
more step of slots. -/
theorem insert?_cases (h : table.insert? id path = some (slot, next)) :
    table.freeSlot? = some slot ∧
      next = { table with slots := table.slots.set slot (some ⟨id, path.bounded⟩) } ∨
    table.freeSlot? = none ∧ table.canGrow = true ∧ slot = table.capacity ∧
      next = { table with
        slots := (table.slots ++ List.replicate table.step none).set slot (some ⟨id, path.bounded⟩)
        growths := table.growths + 1 } := by
  obtain ⟨⟨taken, room⟩, hroom, heq⟩ := Option.map_eq_some_iff.mp h
  obtain ⟨rfl, rfl⟩ := Prod.mk.inj heq
  unfold makeRoom? at hroom
  split at hroom
  · next found hfree =>
    obtain ⟨rfl, rfl⟩ := Prod.mk.inj (Option.some.inj hroom)
    exact .inl ⟨hfree, rfl⟩
  · next hfull =>
    obtain ⟨grown, hgrown, heq⟩ := Option.map_eq_some_iff.mp hroom
    obtain ⟨rfl, rfl⟩ := Prod.mk.inj heq
    unfold grow? at hgrown
    split at hgrown
    · next hgrow =>
      obtain rfl := Option.some.inj hgrown
      exact .inr ⟨hfull, hgrow, rfl, rfl⟩
    · cases hgrown

theorem insert?_eq_none_iff :
    table.insert? id path = none ↔ table.freeSlot? = none ∧ table.canGrow = false := by
  rw [insert?, Option.map_eq_none_iff, makeRoom?]
  cases table.freeSlot? with
  | some slot => simp
  | none => simp [grow?]

theorem filterMap_grown (slots : List (Option Entry)) (count : Nat) :
    (slots ++ List.replicate count none).filterMap (·) = slots.filterMap (·) := by
  rw [List.filterMap_append, List.filterMap_replicate_of_none rfl, List.append_nil]

theorem entries_insert? (h : table.insert? id path = some (slot, next)) :
    next.entries.Perm (⟨id, path.bounded⟩ :: table.entries) := by
  rcases insert?_cases h with ⟨hfree, rfl⟩ | ⟨-, -, rfl, rfl⟩
  · obtain ⟨hlt, hnone, -⟩ := exists_of_freeSlot? hfree
    exact perm_filterMap_set ((List.getElem?_eq_getElem hlt).trans (congrArg some hnone))
  · have hstep := table.step_pos
    have hfree : (table.slots ++ List.replicate table.step none)[table.capacity]? = some none := by
      rw [capacity, List.getElem?_append_right (Nat.le_refl _), Nat.sub_self]
      simp [hstep]
    have hperm := @perm_filterMap_set _ (⟨id, path.bounded⟩ : Entry) _ hfree
    rwa [filterMap_grown] at hperm

theorem step_insert? (h : table.insert? id path = some (slot, next)) : next.step = table.step := by
  rcases insert?_cases h with ⟨-, rfl⟩ | ⟨-, -, -, rfl⟩ <;> rfl

theorem length_entries_of_no_freeSlot (h : table.freeSlot? = none) :
    table.entries.length = table.capacity := by
  rw [entries, List.length_filterMap_eq_countP, capacity, List.countP_eq_length]
  exact isSome_of_no_freeSlot h

/-- An entry finds room as long as there may be one step more slots than there are entries. -/
theorem insert?_isSome (h : table.entries.length + table.step ≤ capacityLimit) (id : WatchId)
    (path : Path) : (table.insert? id path).isSome = true := by
  rw [Option.isSome_iff_ne_none, ne_eq, insert?_eq_none_iff]
  rintro ⟨hfull, hgrow⟩
  rw [length_entries_of_no_freeSlot hfull] at h
  simp [canGrow, h] at hgrow

theorem get?_erase (table : WatchTable) (slot other : Nat) :
    (table.erase slot).get? other = if other = slot then none else table.get? other := by
  simp only [get?, erase, List.getElem?_set]
  by_cases h : slot = other
  · subst other
    by_cases hlt : slot < table.slots.length <;> simp [hlt]
  · simp [h, Ne.symm h]

/-- Freeing a slot takes its entry from the entries. -/
theorem entries_erase (h : table.get? slot = some entry) :
    table.entries.Perm (entry :: (table.erase slot).entries) := by
  have hslot : table.slots[slot]? = some (some entry) := Option.join_eq_some_iff.mp h
  have hlt : slot < table.slots.length := (List.getElem?_eq_some_iff.mp hslot).1
  have hset : (table.slots.set slot none)[slot]? = some none := by simp [hlt]
  have hperm := @perm_filterMap_set _ entry _ hset
  have hself : table.slots.set slot (some entry) = table.slots := by
    rw [← (List.getElem?_eq_some_iff.mp hslot).2, List.set_getElem_self]
  rwa [List.set_set, hself] at hperm

theorem entries_erase_subset (h : table.get? slot = some entry) :
    (table.erase slot).entries ⊆ table.entries := fun _ hmem =>
  (entries_erase h).mem_iff.mpr (List.mem_cons_of_mem _ hmem)

theorem nodup_ids_erase (hids : (table.entries.map (·.id)).Nodup)
    (hget : table.get? slot = some entry) :
    ((table.erase slot).entries.map (·.id)).Nodup ∧
      entry.id ∉ (table.erase slot).entries.map (·.id) := by
  have hnew := ((entries_erase hget).map (·.id)).nodup_iff.mp hids
  rw [List.map_cons, List.nodup_cons] at hnew
  exact hnew.symm

/-- The entry of a freed slot is gone, and with it its watch, and no other. -/
theorem mem_entries_erase_iff {other : Entry} (hids : (table.entries.map (·.id)).Nodup)
    (hget : table.get? slot = some entry) :
    other ∈ (table.erase slot).entries ↔ other ∈ table.entries ∧ other.id ≠ entry.id := by
  constructor
  · refine fun hother => ⟨entries_erase_subset hget hother, fun heq => ?_⟩
    exact (nodup_ids_erase hids hget).2 (List.mem_map.mpr ⟨other, hother, heq⟩)
  · rintro ⟨hother, hne⟩
    refine (List.mem_cons.mp ((entries_erase hget).mem_iff.mp hother)).resolve_left
      fun heq => hne ?_
    rw [heq]

theorem entries_clear (table : WatchTable) : table.clear.entries = [] := by
  rw [entries, clear, List.filterMap_map]
  exact List.filterMap_eq_nil_iff.mpr fun _ _ => rfl

/-- An entry after the directories at or below `source` moved below `target`. -/
def movedEntry (source target : Path) (entry : Entry) : Entry :=
  match moved? source target entry.path with
  | some path => { entry with path := path.bounded }
  | none => entry

theorem movedEntry_of_not_below {source target : Path} (h : entry.path.isBelow source = false) :
    movedEntry source target entry = entry := by
  simp [movedEntry, moved?, Path.below?, h]

theorem movedEntry_id (source target : Path) (entry : Entry) :
    (movedEntry source target entry).id = entry.id := by
  unfold movedEntry
  split <;> rfl

theorem entries_relocate (table : WatchTable) (source target : Path) :
    (table.relocate source target).entries = table.entries.map (movedEntry source target) := by
  rw [entries, relocate, List.filterMap_map, entries, List.map_filterMap]
  rfl

theorem ids_relocate (table : WatchTable) (source target : Path) :
    (table.relocate source target).entries.map (·.id) = table.entries.map (·.id) := by
  rw [entries_relocate, List.map_map]
  exact List.map_congr_left fun entry _ => movedEntry_id source target entry

end Change

section SlotsOfWatches

theorem slotOf?_erase_isSome {other : WatchId} (h : table.get? slot = some entry)
    (hne : other ≠ entry.id) (hsome : (table.slotOf? other).isSome = true) :
    ((table.erase slot).slotOf? other).isSome = true := by
  obtain ⟨hbound, found, hmem, rfl⟩ := slotOf?_isSome_iff.mp hsome
  rcases List.mem_cons.mp ((entries_erase h).mem_iff.mp hmem) with rfl | hmem
  · exact absurd rfl hne
  · exact slotOf?_isSome_iff.mpr ⟨hbound, found, hmem, rfl⟩

theorem slotOf?_insert?_isSome {other : WatchId} (h : table.insert? id path = some (slot, next)) :
    (next.slotOf? other).isSome = true ↔
      (table.slotOf? other).isSome = true ∨ other.isUnbound = false ∧ other = id := by
  simp only [slotOf?_isSome_iff, (entries_insert? h).mem_iff, List.mem_cons]
  constructor
  · rintro ⟨hbound, found, rfl | hmem, rfl⟩
    · exact .inr ⟨hbound, rfl⟩
    · exact .inl ⟨hbound, found, hmem, rfl⟩
  · rintro (⟨hbound, found, hmem, hid⟩ | ⟨hbound, rfl⟩)
    · exact ⟨hbound, found, .inr hmem, hid⟩
    · exact ⟨hbound, _, .inl rfl, rfl⟩

theorem slotOf?_relocate_isSome {source target : Path} :
    ((table.relocate source target).slotOf? id).isSome = (table.slotOf? id).isSome := by
  rw [Bool.eq_iff_iff, slotOf?_isSome_iff, slotOf?_isSome_iff, entries_relocate]
  simp [movedEntry_id]

end SlotsOfWatches

section SlotsBelow

theorem mem_slotsBelow_iff :
    slot ∈ table.slotsBelow path ↔ ∃ entry, table.get? slot = some entry ∧
      entry.path.isBelow path = true := by
  rw [slotsBelow, List.mem_map]
  constructor
  · rintro ⟨⟨index, entry⟩, hmem, rfl⟩
    obtain ⟨hactive, hbelow⟩ := List.mem_filter.mp hmem
    exact ⟨entry, mem_active_iff.mp hactive, hbelow⟩
  · rintro ⟨entry, hget, hbelow⟩
    exact ⟨(slot, entry), List.mem_filter.mpr ⟨mem_active_iff.mpr hget, hbelow⟩, rfl⟩

theorem pairwise_active (table : WatchTable) : (table.active.map (·.1)).Pairwise (· < ·) := by
  have hactive : ∀ (slots : List (Option Entry)) (start : Nat),
      (((slots.zipIdx start).filterMap fun item => item.1.map (item.2, ·)).map (·.1)).Pairwise
      (· < ·) ∧
        ∀ slot ∈ ((slots.zipIdx start).filterMap fun item => item.1.map (item.2, ·)).map (·.1),
          start ≤ slot := by
    intro slots
    induction slots with
    | nil => intro start; simp
    | cons head rest ih =>
      intro start
      obtain ⟨hpairwise, hlt⟩ := ih (start + 1)
      have hle := fun slot hslot => Nat.le_of_succ_le (hlt slot hslot)
      cases head with
      | none =>
        simp only [List.zipIdx_cons, List.filterMap_cons, Option.map_none]
        exact ⟨hpairwise, hle⟩
      | some entry =>
        simp only [List.zipIdx_cons, List.filterMap_cons, Option.map_some, List.map_cons,
          List.pairwise_cons, List.mem_cons, forall_eq_or_imp]
        exact ⟨⟨hlt, hpairwise⟩, Nat.le_refl _, hle⟩
  exact (hactive table.slots 0).1

theorem pairwise_slotsBelow (table : WatchTable) (path : Path) :
    (table.slotsBelow path).Pairwise (· < ·) :=
  table.pairwise_active.sublist (List.filter_sublist.map _)

theorem nodup_slotsBelow (table : WatchTable) (path : Path) : (table.slotsBelow path).Nodup :=
  (table.pairwise_slotsBelow path).imp Nat.ne_of_lt

theorem filterMap_slotsBelow (table : WatchTable) (path : Path) :
    (table.slotsBelow path).filterMap table.get? = table.entries.filter (·.path.isBelow path) := by
  have hget : ∀ item ∈ table.active.filter (fun item => item.2.path.isBelow path),
      table.get? item.1 = some item.2 :=
      fun item hitem => mem_active_iff.mp (List.mem_filter.mp hitem).1
  rw [← map_active, List.filter_map, slotsBelow, List.filterMap_map]
  exact (List.filterMap_congr hget).trans (congrFun List.filterMap_eq_map' _)

theorem length_slotsBelow (table : WatchTable) (path : Path) :
    (table.slotsBelow path).length = (table.entries.filter (·.path.isBelow path)).length := by
  rw [← map_active, List.filter_map, List.length_map, slotsBelow, List.length_map]
  rfl

theorem exists_get?_of_mem_entries (h : entry ∈ table.entries) :
    ∃ slot, table.get? slot = some entry := by
  rw [← map_active] at h
  obtain ⟨⟨slot, found⟩, hmem, rfl⟩ := List.mem_map.mp h
  exact ⟨slot, mem_active_iff.mp hmem⟩

end SlotsBelow

end WatchTable

end TreeWatch
