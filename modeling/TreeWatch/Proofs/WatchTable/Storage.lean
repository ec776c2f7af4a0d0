import TreeWatch.Proofs.WatchTable.Entries

/-!
# The storage of a watch table

What each change does to the slots. An insertion takes the first free slot, or one step of free
slots is appended and it takes the first of these; no other change has a say in how many slots there
are. So there are as many slots as the steps that were ever added have.

A history of a table is a row of changes, with insertions that found no room among them.
-/

namespace TreeWatch

namespace WatchTable

variable {table next : WatchTable} {id : WatchId} {path : Path} {slot : Nat} {entry : Entry}

section Room

theorem size_le_capacity (table : WatchTable) : table.size ≤ table.capacity := by
  rw [size_eq]
  exact List.length_filterMap_le _ _

/-- Every slot is in use exactly if there are as many entries as slots. -/
theorem freeSlot?_eq_none_iff : table.freeSlot? = none ↔ table.size = table.capacity := by
  rw [size_eq]
  constructor
  · exact length_entries_of_no_freeSlot
  · intro hfull
    rw [entries, List.length_filterMap_eq_countP, capacity, List.countP_eq_length] at hfull
    exact List.findIdx?_eq_none_iff.mpr fun found hfound => by simpa using hfull found hfound

theorem not_full (hfree : table.freeSlot? = some slot) : table.size ≠ table.capacity := by
  intro hfull
  rw [freeSlot?_eq_none_iff.mpr hfull] at hfree
  cases hfree

theorem get?_of_capacity_le (hle : table.capacity ≤ slot) : table.get? slot = none := by
  rw [get?, List.getElem?_eq_none hle]
  rfl

theorem join_padded (slots : List (Option Entry)) (count slot : Nat) :
    ((slots ++ List.replicate count none)[slot]?).join = (slots[slot]?).join := by
  rw [List.getElem?_append]
  split
  · rfl
  · next hge =>
    rw [List.getElem?_eq_none (Nat.not_lt.mp hge), List.getElem?_replicate]
    split <;> rfl

end Room

section Insertion

theorem lowest_of_insert? (h : table.insert? id path = some (slot, next)) :
    table.get? slot = none ∧ ∀ lower < slot, (table.get? lower).isSome = true := by
  rcases insert?_cases h with ⟨hfree, -⟩ | ⟨hfull, -, rfl, -⟩
  · obtain ⟨hlt, hnone, hbefore⟩ := exists_of_freeSlot? hfree
    constructor
    · rw [get?, List.getElem?_eq_getElem hlt, hnone, Option.join_some]
    · intro lower hlower
      rw [get?, List.getElem?_eq_getElem (Nat.lt_trans hlower hlt), Option.join_some]
      exact hbefore lower hlower
  · constructor
    · exact get?_of_capacity_le (Nat.le_refl _)
    · intro lower hlower
      rw [get?, List.getElem?_eq_getElem hlower, Option.join_some]
      exact isSome_of_no_freeSlot hfull _ (List.getElem_mem hlower)

theorem slot_eq_capacity_iff (h : table.insert? id path = some (slot, next)) :
    slot = table.capacity ↔ table.size = table.capacity := by
  rcases insert?_cases h with ⟨hfree, -⟩ | ⟨hfull, -, hslot, -⟩
  · obtain ⟨hlt, -⟩ := exists_of_freeSlot? hfree
    exact iff_of_false (Nat.ne_of_lt hlt) (not_full hfree)
  · exact iff_of_true hslot (freeSlot?_eq_none_iff.mp hfull)

theorem get?_insert? (h : table.insert? id path = some (slot, next)) (other : Nat) :
    next.get? other = if other = slot then some ⟨id, path.bounded⟩ else table.get? other := by
  have hset : ∀ slots : List (Option Entry), slot < slots.length →
      ((slots.set slot (some ⟨id, path.bounded⟩))[other]?).join =
        if other = slot then some ⟨id, path.bounded⟩ else (slots[other]?).join := by
    intro slots hlt
    rw [List.getElem?_set]
    by_cases heq : slot = other
    · rw [if_pos heq, if_pos hlt, if_pos heq.symm, Option.join_some]
    · rw [if_neg heq, if_neg (Ne.symm heq)]
  rcases insert?_cases h with ⟨hfree, rfl⟩ | ⟨-, -, rfl, rfl⟩
  · obtain ⟨hlt, -⟩ := exists_of_freeSlot? hfree
    exact hset _ hlt
  · have hstep := table.step_pos
    refine (hset _ ?_).trans (congrArg _ (join_padded _ _ _))
    rw [List.length_append, List.length_replicate, capacity]
    omega

/-- Slots are added, and a step of them, exactly if every slot is in use. -/
theorem room_of_insert? (h : table.insert? id path = some (slot, next)) :
    next.capacity = table.capacity + (if table.size = table.capacity then table.step else 0) ∧
      next.growths = table.growths + if table.size = table.capacity then 1 else 0 := by
  rcases insert?_cases h with ⟨hfree, rfl⟩ | ⟨hfull, -, -, rfl⟩
  · rw [if_neg (not_full hfree), if_neg (not_full hfree), capacity, List.length_set]
    exact ⟨rfl, rfl⟩
  · have hall := freeSlot?_eq_none_iff.mp hfull
    rw [if_pos hall, if_pos hall, capacity, List.length_set, List.length_append,
      List.length_replicate]
    exact ⟨rfl, rfl⟩

end Insertion

section Other

theorem capacity_erase (table : WatchTable) (slot : Nat) :
    (table.erase slot).capacity = table.capacity := List.length_set

theorem capacity_relocate (table : WatchTable) (source target : Path) :
    (table.relocate source target).capacity = table.capacity := List.length_map _

theorem capacity_clear (table : WatchTable) : table.clear.capacity = table.capacity :=
  List.length_map _

theorem erase_of_free (h : table.get? slot = none) : table.erase slot = table := by
  have hset : table.slots.set slot none = table.slots := by
    by_cases hlt : slot < table.slots.length
    · have hfree : table.slots[slot] = none := by simpa [get?, hlt] using h
      calc table.slots.set slot none = table.slots.set slot table.slots[slot] := by rw [hfree]
        _ = table.slots := List.set_getElem_self hlt
    · exact List.set_eq_of_length_le (Nat.not_lt.mp hlt)
  simp only [WatchTable.erase, hset]

theorem get?_relocate (table : WatchTable) (source target : Path) (slot : Nat) :
    (table.relocate source target).get? slot =
    (table.get? slot).map (movedEntry source target) := by
  rw [get?, relocate, List.getElem?_map, get?]
  cases table.slots[slot]? <;> rfl

theorem get?_clear (table : WatchTable) (slot : Nat) : table.clear.get? slot = none := by
  rw [get?, clear, List.getElem?_map]
  cases table.slots[slot]? <;> rfl

end Other

section Histories

inductive Change where
  | insert (id : WatchId) (path : Path)
  | erase (slot : Nat)
  | relocate (source target : Path)
  | clear
  deriving DecidableEq, Repr

/-- A table after a change; an insertion that finds no room leaves it alone. -/
def after (table : WatchTable) : Change → WatchTable
  | .insert id path =>
    match table.insert? id path with
    | some (_, next) => next
    | none => table
  | .erase slot => table.erase slot
  | .relocate source target => table.relocate source target
  | .clear => table.clear

def outcome (table : WatchTable) (changes : List Change) : WatchTable := changes.foldl after table

theorem after_of_insert? (h : table.insert? id path = some (slot, next)) :
    table.after (.insert id path) = next := by
  rw [after, h]

theorem after_of_no_room (h : table.insert? id path = none) :
    table.after (.insert id path) = table := by
  rw [after, h]

theorem step_after (table : WatchTable) (change : Change) :
    (table.after change).step = table.step := by
  cases change with
  | insert id path =>
    cases hinsert : table.insert? id path with
    | some taken => rw [after_of_insert? hinsert, step_insert? hinsert]
    | none => rw [after_of_no_room hinsert]
  | erase slot => rfl
  | relocate source target => rfl
  | clear => rfl

end Histories

end WatchTable

end TreeWatch
