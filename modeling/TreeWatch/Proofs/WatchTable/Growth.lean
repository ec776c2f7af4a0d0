import Mathlib.Algebra.Group.Nat.Defs
import TreeWatch.Proofs.Tracker.Requests
import TreeWatch.Proofs.WatchTable.Storage

/-!
# How far a watch table grows

The slots of a table follow the most entries that it ever held at a time: they are that peak,
rounded up to whole steps. So a step is added only when every slot is in use, and it is never given
back.
-/

namespace TreeWatch

namespace WatchTable

variable {table next : WatchTable} {id : WatchId} {path : Path} {slot most : Nat}

section Sizes

theorem size_insert? (h : table.insert? id path = some (slot, next)) :
    next.size = table.size + 1 := by
  rw [size_eq, size_eq, (entries_insert? h).length_eq, List.length_cons]

theorem size_erase_le (table : WatchTable) (slot : Nat) : (table.erase slot).size ≤ table.size := by
  cases hget : table.get? slot with
  | none => exact Nat.le_of_eq (congrArg size (erase_of_free hget))
  | some entry =>
    rw [size_eq, size_eq, (entries_erase hget).length_eq, List.length_cons]
    exact Nat.le_succ _

theorem size_relocate (table : WatchTable) (source target : Path) :
    (table.relocate source target).size = table.size := by
  rw [size_eq, size_eq, entries_relocate, List.length_map]

theorem size_clear_le (table : WatchTable) : table.clear.size ≤ table.size := by
  rw [size_eq, entries_clear]
  exact Nat.zero_le _

end Sizes

/-- The most entries that a table holds at a time on the way through a history, both ends
included. -/
def peak (table : WatchTable) : List Change → Nat
  | [] => table.size
  | change :: rest => max table.size ((table.after change).peak rest)

theorem size_le_peak (table : WatchTable) (changes : List Change) :
    table.size ≤ table.peak changes := by
  cases changes with
  | nil => exact Nat.le_refl _
  | cons change rest => exact Nat.le_max_left _ _

/-- A table that has as many slots as a peak of entries needs: too few if there were one step
less. -/
structure Sized (table : WatchTable) (most : Nat) : Prop where
  stepped : table.capacity = table.step * table.growths
  size : table.size ≤ most
  holds : most ≤ table.capacity
  needed : table.capacity < most + table.step

namespace Sized

theorem ofStep (step : Nat) : (ofStep step).Sized 0 where
  stepped := rfl
  size := Nat.le_refl 0
  holds := Nat.le_refl 0
  needed := Nat.lt_of_lt_of_le (WatchTable.ofStep step).step_pos (Nat.le_add_left _ _)

/-- Room for one more entry is added only if the peak takes all there is. -/
theorem insert? (h : table.Sized most) (hinsert : table.insert? id path = some (slot, next)) :
    next.Sized (max most next.size) := by
  obtain ⟨hcapacity, hgrowths⟩ := room_of_insert? hinsert
  have hsize := size_insert? hinsert
  have hstep := step_insert? hinsert
  have hfits := next.size_le_capacity
  have hpeak := h.size
  have hholds := h.holds
  have hneeded := h.needed
  constructor
  · rw [hcapacity, hgrowths, hstep, h.stepped]
    split
    · rw [Nat.mul_succ]
    · rfl
  · omega
  · omega
  · split at hcapacity <;> omega

theorem of_size_le (h : table.Sized most) (hcapacity : next.capacity = table.capacity)
    (hsize : next.size ≤ table.size) (hstep : next.step = table.step)
    (hgrowths : next.growths = table.growths) : next.Sized (max most next.size) := by
  have hpeak := h.size
  have hholds := h.holds
  have hneeded := h.needed
  constructor
  · rw [hcapacity, hstep, hgrowths, h.stepped]
  · omega
  · omega
  · omega

theorem after (h : table.Sized most) (change : Change) :
    (table.after change).Sized (max most (table.after change).size) := by
  cases change with
  | insert id path =>
    cases hinsert : table.insert? id path with
    | some taken =>
      rw [after_of_insert? hinsert]
      exact h.insert? hinsert
    | none =>
      rw [after_of_no_room hinsert]
      exact h.of_size_le rfl (Nat.le_refl _) rfl rfl
  | erase slot => exact h.of_size_le (capacity_erase table slot) (size_erase_le table slot) rfl rfl
  | relocate source target =>
    exact h.of_size_le (capacity_relocate table source target)
      (Nat.le_of_eq (size_relocate table source target)) rfl rfl
  | clear => exact h.of_size_le (capacity_clear table) (size_clear_le table) rfl rfl

theorem outcome (h : table.Sized most) (changes : List Change) :
    (table.outcome changes).Sized (max most (table.peak changes)) := by
  induction changes generalizing table most with
  | nil => exact (Nat.max_eq_left h.size).symm ▸ h
  | cons change rest ih =>
    have hrest := ih (h.after change)
    have hfirst := h.size
    have hnext := size_le_peak (table.after change) rest
    have hpeak : max (max most (table.after change).size) ((table.after change).peak rest) =
        max most (table.peak (change :: rest)) := by
      rw [peak]
      omega
    rwa [hpeak] at hrest

/-- The steps that were added are the peak in steps, rounded up. -/
theorem growths_eq (h : table.Sized most) :
    table.growths = (most + table.step - 1) / table.step := by
  have hstep := table.step_pos
  have hholds := h.holds
  have hneeded := h.needed
  rw [h.stepped] at hholds hneeded
  symm
  apply Nat.div_eq_of_lt_le
  · rw [Nat.mul_comm]
    omega
  · rw [Nat.succ_mul, Nat.mul_comm]
    omega

end Sized

section Room

theorem step_outcome (table : WatchTable) (changes : List Change) :
    (table.outcome changes).step = table.step := by
  induction changes generalizing table with
  | nil => rfl
  | cons change rest ih => exact (ih (table.after change)).trans (step_after table change)

theorem sized_outcome (step : Nat) (changes : List Change) :
    ((ofStep step).outcome changes).Sized ((ofStep step).peak changes) := by
  have h := (Sized.ofStep step).outcome changes
  rwa [Nat.zero_max] at h

theorem canGrow_eq_false_iff :
    table.canGrow = false ↔ 2 ^ 63 - 1 < 32 * (table.capacity + table.step) := by
  have hlimit : capacityLimit = (2 ^ 63 - 1) / 32 := rfl
  rw [canGrow, decide_eq_false_iff_not, hlimit]
  omega

/-- An entry for which there is no room is a fault that names the room there is, and nothing
changes. -/
theorem addEntry_of_no_room {moment : Moment} {t : Tracker} (h : t.table.insert? id path = none) :
    Tracker.addEntry id path moment t = ⟨.error (.noRoom t.table.capacity), t, []⟩ := by
  simp only [Tracker.addEntry, Action.bind_apply, Action.state_apply, h, Action.fail_apply]
  rfl

end Room

/-- Through every history a table has as many slots as the most entries it ever held need, in whole
steps: a step is added only when every slot is in use, and none is given back. Only where no further
step can be had does an insertion fail, and then it says how much room there is and changes
nothing. -/
theorem growth_follows_the_peak (step : Nat) (changes : List Change) :
    let table := (ofStep step).outcome changes
    table.capacity = max step 1 * table.growths ∧
    table.growths = ((ofStep step).peak changes + max step 1 - 1) / max step 1 ∧
    (∀ id path slot next, table.insert? id path = some (slot, next) →
      next.capacity = table.capacity + (if table.size = table.capacity then max step 1 else 0) ∧
      next.growths = table.growths + if table.size = table.capacity then 1 else 0) ∧
    (∀ slot, (table.erase slot).capacity = table.capacity) ∧
    (∀ source target, (table.relocate source target).capacity = table.capacity) ∧
    table.clear.capacity = table.capacity ∧
    (∀ id path, table.insert? id path = none ↔
      table.size = table.capacity ∧ 2 ^ 63 - 1 < 32 * (table.capacity + max step 1)) ∧
    ∀ id path moment t, t.table = table → table.insert? id path = none →
      Tracker.addEntry id path moment t = ⟨.error (.noRoom table.capacity), t, []⟩ := by
  intro table
  have hsized : table.Sized ((ofStep step).peak changes) := sized_outcome step changes
  have hstep : table.step = max step 1 := step_outcome _ changes
  rw [← hstep]
  refine ⟨hsized.stepped, hsized.growths_eq, ?_, capacity_erase table, capacity_relocate table,
    capacity_clear table, ?_, ?_⟩
  · intro id path slot next hinsert
    exact room_of_insert? hinsert
  · intro id path
    rw [insert?_eq_none_iff, freeSlot?_eq_none_iff, canGrow_eq_false_iff]
  · intro id path moment t ht hnone
    rw [← ht] at hnone ⊢
    exact addEntry_of_no_room hnone

/-- Three entries in steps of two take two steps, which a slot freed and used again and a clearance
leave; and of a step that all memory could not hold there is never one. -/
theorem growth_follows_the_peak_of_recycling :
    let path := Path.mk [47, 97]
    let changes : List Change :=
      [.insert ⟨1⟩ path, .insert ⟨2⟩ path, .insert ⟨3⟩ path, .erase 0, .insert ⟨4⟩ path, .clear]
    ((ofStep 2).outcome changes).growths = 2 ∧ ((ofStep 2).outcome changes).capacity = 4 ∧
      ((ofStep (2 ^ 58)).outcome []).insert? ⟨1⟩ path = none := by
  intro path changes
  obtain ⟨hcapacity, hgrowths, -⟩ := growth_follows_the_peak 2 changes
  obtain ⟨-, -, -, -, -, -, hnone, -⟩ := growth_follows_the_peak (2 ^ 58) []
  have hpeak : (ofStep 2).peak changes = 3 := by decide
  rw [hpeak] at hgrowths
  have htwo : ((ofStep 2).outcome changes).growths = 2 := hgrowths
  refine ⟨htwo, ?_, (hnone _ _).mpr ⟨rfl, by decide⟩⟩
  rw [hcapacity, htwo]
  rfl

end WatchTable

end TreeWatch
