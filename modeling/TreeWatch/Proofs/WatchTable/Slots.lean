import TreeWatch.Proofs.WatchTable.Storage
import Mathlib.Data.List.Induction

/-!
# Which watch a slot holds

Slots are used again, and free ones all look alike. All the same a slot holds what was put into it
last, from then on until it is freed, and its watch is found there and nowhere else: as long as no
watch is put in twice, the look-up by number is the inverse of what the slots hold.

What a slot should hold after a history is said by the history alone, by `Settled`: an insertion
that took the slot, nothing since that frees it, and the path as later moves left it.
-/

namespace TreeWatch

namespace WatchTable

variable {table next : WatchTable} {id : WatchId} {path : Path} {slot : Nat} {entry : Entry}
  {change : Change} {changes : List Change}

section Changes

def Change.frees (slot : Nat) : Change → Bool
  | .erase other => other == slot
  | .clear => true
  | .insert _ _ | .relocate _ _ => false

/-- Where a change takes a path that the table holds. -/
def Change.carry (path : Path) : Change → Path
  | .relocate source target =>
    match moved? source target path with
    | some moved => ⟨moved.bytes.take pathMax⟩
    | none => path
  | .insert _ _ | .erase _ | .clear => path

/-- A change puts an entry into a slot. -/
def Places (table : WatchTable) (change : Change) (slot : Nat) (entry : Entry) : Prop :=
  ∃ path next, change = .insert entry.id path ∧ table.insert? entry.id path = some (slot, next) ∧
    entry.path = ⟨path.bytes.take pathMax⟩

/-- A change leaves an entry in its slot, from `old` to `entry`. -/
def Leaves (change : Change) (slot : Nat) (old entry : Entry) : Prop :=
  change.frees slot = false ∧ entry = ⟨old.id, change.carry old.path⟩

theorem movedEntry_eq (source target : Path) (entry : Entry) :
    movedEntry source target entry = ⟨entry.id,
      Change.carry entry.path (.relocate source target)⟩ := by
  unfold movedEntry Change.carry
  split
  · next hmoved => simp only [hmoved, Path.bounded_eq_take]
  · next hmoved => simp only [hmoved]

theorem exists_leaves_iff (hfrees : change.frees slot = false)
    (hcarry : ∀ path, change.carry path = path) :
    (∃ old, table.get? slot = some old ∧ Leaves change slot old entry) ↔
      table.get? slot = some entry := by
  simp [Leaves, hfrees, hcarry]

theorem not_places (h : ∀ id path, change ≠ .insert id path) :
    ¬ table.Places change slot entry := by
  rintro ⟨path, next, hchange, -⟩
  exact h _ _ hchange

theorem get?_after_insert (id : WatchId) (path : Path) :
    (table.after (.insert id path)).get? slot = some entry ↔
      table.Places (.insert id path) slot entry ∨ table.get? slot = some entry := by
  cases hinsert : table.insert? id path with
  | none =>
    have hplaces : ¬ table.Places (.insert id path) slot entry := by
      rintro ⟨path, next, heq, hinsert', -⟩
      cases heq
      rw [hinsert] at hinsert'
      cases hinsert'
    rw [after_of_no_room hinsert, or_iff_right hplaces]
  | some taken =>
    obtain ⟨free, next⟩ := taken
    have hplaces : table.Places (.insert id path) slot entry ↔
        slot = free ∧ ⟨id, ⟨path.bytes.take pathMax⟩⟩ = entry := by
      constructor
      · rintro ⟨path, next, heq, hinsert', hpath⟩
        cases heq
        rw [hinsert] at hinsert'
        cases hinsert'
        exact ⟨rfl, hpath ▸ rfl⟩
      · rintro ⟨rfl, rfl⟩
        exact ⟨path, next, rfl, hinsert, rfl⟩
    rw [after_of_insert? hinsert, get?_insert? hinsert, hplaces, Path.bounded_eq_take]
    by_cases hslot : slot = free
    · simp [hslot, (lowest_of_insert? hinsert).1]
    · simp [hslot]

theorem get?_after_erase (other : Nat) :
    (table.after (.erase other)).get? slot = some entry ↔
      ∃ old, table.get? slot = some old ∧ Leaves (.erase other) slot old entry := by
  rw [after, get?_erase]
  by_cases hslot : slot = other
  · simp [hslot, Leaves, Change.frees]
  · rw [if_neg hslot, exists_leaves_iff (by simp [Change.frees, Ne.symm hslot]) fun _ => rfl]

/-- What a slot holds after a change was put there by it, or was there before and not freed. -/
theorem get?_after (change : Change) :
    (table.after change).get? slot = some entry ↔
      table.Places change slot entry ∨
        ∃ old, table.get? slot = some old ∧ Leaves change slot old entry := by
  cases change with
  | insert id path => rw [exists_leaves_iff rfl fun _ => rfl, get?_after_insert]
  | erase other => rw [or_iff_right (not_places fun _ _ heq => by cases heq), get?_after_erase]
  | relocate source target =>
    rw [or_iff_right (not_places fun _ _ heq => by cases heq), after, get?_relocate,
      Option.map_eq_some_iff]
    simp [Leaves, Change.frees, movedEntry_eq, eq_comm]
  | clear =>
    rw [or_iff_right (not_places fun _ _ heq => by cases heq), after]
    simp [get?_clear, Leaves, Change.frees]

end Changes

section Histories

/-- An entry is what a history has left in a slot: an insertion took the slot for its watch, nothing
freed it since, and its path went where later changes took it. -/
def Settled (table : WatchTable) (changes : List Change) (slot : Nat) (entry : Entry) : Prop :=
  ∃ earlier path later next, changes = earlier ++ .insert entry.id path :: later ∧
    (table.outcome earlier).insert? entry.id path = some (slot, next) ∧
    (∀ change ∈ later, change.frees slot = false) ∧
    entry.path = later.foldl Change.carry ⟨path.bytes.take pathMax⟩

theorem settled_snoc : table.Settled (changes ++ [change]) slot entry ↔
    (table.outcome changes).Places change slot entry ∨
      ∃ old, table.Settled changes slot old ∧ Leaves change slot old entry := by
  constructor
  · rintro ⟨earlier, path, later, next, hchanges, hinsert, hkept, hpath⟩
    rcases List.eq_nil_or_concat later with rfl | ⟨before, last, rfl⟩
    · obtain ⟨rfl, hlast⟩ := List.append_inj' hchanges rfl
      exact .inl ⟨path, next, List.singleton_inj.mp hlast, hinsert, hpath⟩
    · rw [List.concat_eq_append, ← List.cons_append, ← List.append_assoc] at hchanges
      obtain ⟨rfl, hlast⟩ := List.append_inj' hchanges rfl
      obtain rfl := List.singleton_inj.mp hlast
      rw [List.concat_eq_append, List.foldl_append] at hpath
      right
      refine ⟨⟨entry.id, before.foldl Change.carry ⟨path.bytes.take pathMax⟩⟩, ?_, ?_, ?_⟩
      · exact ⟨earlier, path, before, next, rfl, hinsert,
          fun change hchange => hkept change (by simp [hchange]), rfl⟩
      · exact hkept change (by simp)
      · exact congrArg (Entry.mk entry.id) hpath
  · rintro (⟨path, next, rfl, hinsert, hpath⟩ |
      ⟨old, ⟨earlier, path, later, next, rfl, hinsert, hkept, hpath⟩, hfrees, rfl⟩)
    · exact ⟨changes, path, [], next, rfl, hinsert, nofun, hpath⟩
    · refine ⟨earlier, path, later ++ [change], next, by simp, hinsert, ?_, ?_⟩
      · intro other hother
        rcases List.mem_append.mp hother with hother | hother
        · exact hkept other hother
        · rwa [List.mem_singleton.mp hother]
      · rw [List.foldl_append, ← hpath]
        rfl

theorem outcome_snoc (table : WatchTable) (changes : List Change) (change : Change) :
    table.outcome (changes ++ [change]) = (table.outcome changes).after change :=
  List.foldl_concat _ _ _ _

/-- A slot holds what the history has left in it. -/
theorem get?_outcome (step : Nat) (changes : List Change) :
    ((ofStep step).outcome changes).get? slot = some entry ↔
      (ofStep step).Settled changes slot entry := by
  induction changes using List.reverseRecOn generalizing entry with
  | nil =>
    constructor
    · exact nofun
    · rintro ⟨earlier, path, later, next, hchanges, -⟩
      simp at hchanges
  | append_singleton changes change ih =>
    rw [outcome_snoc, get?_after, settled_snoc]
    simp only [ih]

theorem length_foldl_carry_le (changes : List Change) (h : path.bytes.length ≤ pathMax) :
    (changes.foldl Change.carry path).bytes.length ≤ pathMax := by
  induction changes generalizing path with
  | nil => exact h
  | cons change rest ih =>
    apply ih
    unfold Change.carry
    split
    · split
      · exact List.length_take_le _ _
      · exact h
    · exact h
    · exact h
    · exact h

theorem Settled.length_path_le (h : table.Settled changes slot entry) :
    entry.path.bytes.length ≤ pathMax := by
  obtain ⟨earlier, path, later, next, -, -, -, hpath⟩ := h
  rw [hpath]
  exact length_foldl_carry_le later (List.length_take_le _ _)

end Histories

section Numbers

/-- A watch that is put in has a number, and no entry has it. -/
def Suits (table : WatchTable) : Change → Prop
  | .insert id _ => id.isUnbound = false ∧ ∀ entry ∈ table.entries, entry.id ≠ id
  | .erase _ | .relocate _ _ | .clear => True

instance : Decidable (table.Suits change) := by
  unfold Suits
  split <;> infer_instance

/-- No watch is put in while it is in the table. -/
def Fresh (table : WatchTable) : List Change → Prop
  | [] => True
  | change :: rest => table.Suits change ∧ (table.after change).Fresh rest

instance instDecidableFresh :
    (table : WatchTable) → (changes : List Change) → Decidable (table.Fresh changes)
  | _, [] => inferInstanceAs (Decidable True)
  | table, change :: rest =>
    have := instDecidableFresh (table.after change) rest
    inferInstanceAs (Decidable (_ ∧ _))

/-- A table in which every entry has a number of its own. -/
structure Distinct (table : WatchTable) : Prop where
  ids : (table.entries.map (·.id)).Nodup
  bound : ∀ entry ∈ table.entries, entry.id.isUnbound = false

namespace Distinct

theorem ofStep (step : Nat) : (ofStep step).Distinct := ⟨List.nodup_nil, nofun⟩

theorem of_subset (h : table.Distinct) {next : WatchTable}
    (hids : (next.entries.map (·.id)).Sublist (table.entries.map (·.id))) : next.Distinct where
  ids := h.ids.sublist hids
  bound entry hentry := by
    obtain ⟨other, hother, hid⟩ := List.mem_map.mp (hids.subset (List.mem_map_of_mem hentry))
    exact hid ▸ h.bound other hother

theorem erase (h : table.Distinct) (slot : Nat) : (table.erase slot).Distinct := by
  cases hget : table.get? slot with
  | none => rwa [erase_of_free hget]
  | some entry =>
    exact ⟨(nodup_ids_erase h.ids hget).1, fun other hother =>
      h.bound other (entries_erase_subset hget hother)⟩

theorem insert? (h : table.Distinct) (hinsert : table.insert? id path = some (slot, next))
    (hsuits : table.Suits (.insert id path)) : next.Distinct := by
  have hperm := entries_insert? hinsert
  obtain ⟨hbound, hnew⟩ := hsuits
  constructor
  · rw [(hperm.map (·.id)).nodup_iff, List.map_cons, List.nodup_cons]
    refine ⟨fun hmem => ?_, h.ids⟩
    obtain ⟨other, hother, hid⟩ := List.mem_map.mp hmem
    exact hnew other hother hid
  · intro other hother
    rcases List.mem_cons.mp (hperm.mem_iff.mp hother) with rfl | hother
    · exact hbound
    · exact h.bound other hother

theorem after (h : table.Distinct) (hsuits : table.Suits change) :
    (table.after change).Distinct := by
  cases change with
  | insert id path =>
    cases hinsert : table.insert? id path with
    | some taken => exact after_of_insert? hinsert ▸ h.insert? hinsert hsuits
    | none => rwa [after_of_no_room hinsert]
  | erase slot => exact h.erase slot
  | relocate source target =>
    exact h.of_subset (ids_relocate table source target ▸ List.Sublist.refl _)
  | clear =>
    refine h.of_subset ?_
    rw [WatchTable.after, entries_clear]
    exact List.nil_sublist _

theorem outcome (h : table.Distinct) (hfresh : table.Fresh changes) :
    (table.outcome changes).Distinct := by
  induction changes generalizing table with
  | nil => exact h
  | cons change rest ih => exact ih (h.after hfresh.1) hfresh.2

theorem slot_eq (h : table.Distinct) {other : Nat} {a b : Entry} (ha : table.get? slot = some a)
    (hb : table.get? other = some b) (hid : a.id = b.id) : slot = other := by
  have hids : (table.active.map fun item => item.2.id).Nodup := by
    have hmap : table.active.map (fun item => item.2.id) = table.entries.map (·.id) := by
      rw [← map_active, List.map_map]
      rfl
    exact hmap ▸ h.ids
  exact congrArg Prod.fst
    (List.inj_on_of_nodup_map hids (mem_active_iff.mpr ha) (mem_active_iff.mpr hb) hid)

/-- A watch is found in the slot that holds it. -/
theorem slotOf?_eq_some_iff (h : table.Distinct) :
    table.slotOf? id = some slot ↔ ∃ path, table.get? slot = some ⟨id, path⟩ := by
  constructor
  · intro hslot
    obtain ⟨entry, hget, rfl⟩ := slotOf?_eq_some hslot
    exact ⟨entry.path, hget⟩
  · rintro ⟨path, hget⟩
    have hentry := mem_entries_of_get? hget
    obtain ⟨found, hfound, hgot⟩ := exists_slotOf? h.ids hentry (h.bound _ hentry)
    rwa [h.slot_eq hget hgot rfl]

end Distinct

end Numbers

section Undoing

/-- The entries among some slots with their slots, in slot order. -/
def rows (slots : List (Option Entry)) : List (Nat × Entry) :=
  slots.zipIdx.filterMap fun (entry, slot) => entry.map (slot, ·)

theorem rows_padded (slots : List (Option Entry)) (count : Nat) :
    rows (slots ++ List.replicate count none) = rows slots := by
  rw [rows, List.zipIdx_append, List.filterMap_append, rows, List.append_right_eq_self,
    List.filterMap_eq_nil_iff]
  rintro ⟨found, index⟩ hmem
  obtain ⟨-, -, hfound⟩ := List.mem_zipIdx hmem
  rw [hfound, List.getElem_replicate]
  rfl

theorem active_erase_insert? (h : table.insert? id path = some (slot, next)) :
    (next.erase slot).active = table.active := by
  change rows (next.slots.set slot none) = rows table.slots
  rcases insert?_cases h with ⟨hfree, rfl⟩ | ⟨-, -, rfl, rfl⟩
  · obtain ⟨hlt, hnone, -⟩ := exists_of_freeSlot? hfree
    have hsame : table.slots.set slot none = table.slots := by
      calc table.slots.set slot none = table.slots.set slot table.slots[slot] := by rw [hnone]
        _ = table.slots := List.set_getElem_self hlt
    rw [List.set_set, hsame]
  · rw [capacity, List.set_set, List.set_append_right _ _ (Nat.le_refl _), List.set_replicate_self,
      rows_padded]

end Undoing

/-- Along every history in which no watch is put in twice, no two entries share a watch; a slot
holds exactly what the history has left in it, and there its watch is found, while a watch that no
slot holds, or that has no number, is found nowhere. The next entry takes the lowest free slot, or
the first behind all if none is free, and freeing that slot undoes it. -/
theorem slots_keep_their_watches {step : Nat} (h : (ofStep step).Fresh changes) :
    let table := (ofStep step).outcome changes
    (table.entries.map (·.id)).Nodup ∧
    (∀ slot entry, table.get? slot = some entry ↔ (ofStep step).Settled changes slot entry) ∧
    (∀ id slot, table.slotOf? id = some slot ↔
      ∃ path, (ofStep step).Settled changes slot ⟨id, path⟩) ∧
    (∀ id slot, table.checkedSlot id = .ok slot ↔ table.slotOf? id = some slot) ∧
    (∀ id, (id.isUnbound = true ∨ ∀ slot path, ¬ (ofStep step).Settled changes slot ⟨id, path⟩) →
      table.slotOf? id = none ∧ table.checkedSlot id = .error (.unknownWatch id)) ∧
    (∀ id path slot next, table.insert? id path = some (slot, next) →
      table.get? slot = none ∧ (∀ lower < slot, (table.get? lower).isSome = true) ∧
      (slot = table.capacity ↔ table.size = table.capacity) ∧
      (next.erase slot).active = table.active) ∧
    ∀ entry ∈ table.entries, entry.path.bytes.length ≤ pathMax := by
  intro table
  have hdistinct : table.Distinct := (Distinct.ofStep step).outcome h
  have hsettled := fun slot entry => @get?_outcome slot entry step changes
  have hfound : ∀ id slot, table.slotOf? id = some slot ↔
      ∃ path, (ofStep step).Settled changes slot ⟨id, path⟩ := by
    intro id slot
    rw [hdistinct.slotOf?_eq_some_iff]
    exact exists_congr fun path => hsettled slot _
  refine ⟨hdistinct.ids, hsettled, hfound, ?_, ?_, ?_, ?_⟩
  · intro id slot
    rw [checkedSlot]
    cases table.slotOf? id <;> simp
  · intro id habsent
    have hnone : table.slotOf? id = none := by
      rcases habsent with hunbound | hnowhere
      · exact slotOf?_eq_none_iff.mpr (.inl hunbound)
      · rw [Option.eq_none_iff_forall_ne_some]
        intro slot hslot
        obtain ⟨path, hpath⟩ := (hfound id slot).mp hslot
        exact hnowhere slot path hpath
    exact ⟨hnone, by rw [checkedSlot, hnone]⟩
  · intro id path slot next hinsert
    obtain ⟨hfree, hlower⟩ := lowest_of_insert? hinsert
    exact ⟨hfree, hlower, slot_eq_capacity_iff hinsert, active_erase_insert? hinsert⟩
  · intro entry hentry
    obtain ⟨slot, hget⟩ := exists_get?_of_mem_entries hentry
    exact ((hsettled slot entry).mp hget).length_path_le

/-- A slot that was freed goes to another watch, the table grows between two insertions, and the
watch that lost its slot comes back in a new one. -/
theorem slots_keep_their_watches_of_recycling :
    let changes : List Change :=
      [.insert ⟨1⟩ ⟨[47, 97]⟩, .insert ⟨2⟩ ⟨[47, 97, 47, 98]⟩, .erase 0, .insert ⟨3⟩ ⟨[47, 99]⟩,
        .relocate ⟨[47, 97]⟩ ⟨[47, 100]⟩, .insert ⟨1⟩ ⟨[47, 101]⟩]
    let table := (ofStep 1).outcome changes
    (ofStep 1).Fresh changes ∧ table.slotOf? ⟨3⟩ = some 0 ∧
      table.get? 1 = some ⟨⟨2⟩, ⟨[47, 100, 47, 98]⟩⟩ ∧ table.slotOf? ⟨1⟩ = some 2 ∧
      table.checkedSlot ⟨-1⟩ = .error (.unknownWatch ⟨-1⟩) := by
  intro changes table
  have hfresh : (ofStep 1).Fresh changes := by decide
  obtain ⟨-, hget, hslot, -, habsent, -⟩ := slots_keep_their_watches hfresh
  refine ⟨hfresh, (hslot _ _).mpr ?_, (hget _ _).mpr ?_, (hslot _ _).mpr ?_,
    (habsent _ (.inl rfl)).2⟩
  · exact ⟨⟨[47, 99]⟩, changes.take 3, ⟨[47, 99]⟩, changes.drop 4, _, rfl, rfl, by decide,
      by decide⟩
  · exact ⟨changes.take 1, ⟨[47, 97, 47, 98]⟩, changes.drop 2, _, rfl, rfl, by decide, by decide⟩
  · exact ⟨⟨[47, 101]⟩, changes.take 5, ⟨[47, 101]⟩, [], _, rfl, rfl, by decide, by decide⟩

end WatchTable

end TreeWatch
