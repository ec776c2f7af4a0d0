import TreeWatch.Tracker.Handling
import TreeWatch.Proofs.Roots.Retirement
import TreeWatch.Proofs.Tracker.Ends

/-!
# What cannot fail

Retiring roots, giving up entries and ending the wait of departures always succeed, whatever the
tree and the clock say. What they do to a tracker is given here as functions, and so is what the
events do that only need these; an action is then replaced by its function once and for all.
-/

namespace TreeWatch

namespace Tracker

open TreeWatch.Action

variable {moment : Moment} {t : Tracker} {failed : Fault → Tracker → Prop} {path : Path}
  {slot : Nat} {id : WatchId}

section Roots

/-- With the live root at a path retired, if there is one. -/
def withoutRoot (t : Tracker) (path : Path) : Tracker :=
  if t.roots.isRoot path then
    { t with
      roots := (t.roots.retire path).2
      counts := { t.counts with rootsRetired := t.counts.rootsRetired + 1 } }
  else t

@[simp] theorem source_withoutRoot : (t.withoutRoot path).source = t.source := by
  unfold withoutRoot; split <;> rfl

@[simp] theorem table_withoutRoot : (t.withoutRoot path).table = t.table := by
  unfold withoutRoot; split <;> rfl

@[simp] theorem departures_withoutRoot : (t.withoutRoot path).departures = t.departures := by
  unfold withoutRoot; split <;> rfl

@[simp] theorem draining_withoutRoot : (t.withoutRoot path).draining = t.draining := by
  unfold withoutRoot; split <;> rfl

@[simp] theorem policy_withoutRoot : (t.withoutRoot path).policy = t.policy := by
  unfold withoutRoot; split <;> rfl

@[simp] theorem rebuilds_withoutRoot :
    (t.withoutRoot path).counts.rebuilds = t.counts.rebuilds := by
  unfold withoutRoot; split <;> rfl

theorem roots_withoutRoot : (t.withoutRoot path).roots = (t.roots.retire path).2 := by
  unfold withoutRoot
  split
  · rfl
  · next h => rw [Roots.retire_of_not_isRoot (Bool.eq_false_iff.mpr h)]

@[simp] theorem live_withoutRoot :
    (t.withoutRoot path).roots.live = t.roots.live.eraseP (·.path.same path) := by
  rw [roots_withoutRoot]
  exact Roots.live_retire t.roots path

theorem withoutRoot_eq : t.withoutRoot path = { t with
    roots := (t.withoutRoot path).roots
    counts := { t.counts with rootsRetired := (t.withoutRoot path).counts.rootsRetired } } := by
  unfold withoutRoot
  split <;> rfl

theorem counts_withoutRoot : (t.withoutRoot path).counts = { t.counts with
    rootsRetired := t.counts.rootsRetired + if t.roots.isRoot path then 1 else 0 } := by
  unfold withoutRoot
  split <;> rfl

theorem rootsRetired_withoutRoot :
    (t.withoutRoot path).counts.rootsRetired + (t.withoutRoot path).roots.liveCount =
    t.counts.rootsRetired + t.roots.liveCount := by
  unfold withoutRoot
  split
  · next h =>
    have hcount := Roots.liveCount_retire h
    simp only
    omega
  · rfl

@[simp] theorem ends_retireRoot {done : Unit → Tracker → Prop} :
    (retireRoot path).Ends moment t done failed ↔ done () (t.withoutRoot path) := by
  have hroot := @Roots.retire_fst_eq_notARoot_iff t.roots path
  rw [retireRoot, ends_bind, ends_state, withoutRoot]
  rcases hretire : t.roots.retire path with ⟨retirement, roots⟩
  rw [hretire] at hroot
  cases retirement with
  | notARoot =>
    rw [if_neg (by simpa using hroot.mp rfl)]
    exact ends_pure
  | remaining count =>
    rw [if_pos (by simpa using mt hroot.mpr)]
    simp
  | exhausted =>
    rw [if_pos (by simpa using mt hroot.mpr)]
    simp

end Roots

section Entries

def drained (t : Tracker) (id : WatchId) : Tracker :=
  if t.isDraining id then t else { t with draining := t.draining ++ [id] }

@[simp] theorem source_drained : (t.drained id).source = t.source := by
  unfold drained; split <;> rfl

@[simp] theorem table_drained : (t.drained id).table = t.table := by
  unfold drained; split <;> rfl

@[simp] theorem roots_drained : (t.drained id).roots = t.roots := by
  unfold drained; split <;> rfl

@[simp] theorem departures_drained : (t.drained id).departures = t.departures := by
  unfold drained; split <;> rfl

@[simp] theorem policy_drained : (t.drained id).policy = t.policy := by
  unfold drained; split <;> rfl

@[simp] theorem counts_drained : (t.drained id).counts = t.counts := by
  unfold drained; split <;> rfl

theorem mem_draining_drained {other : WatchId} :
    other ∈ (t.drained id).draining ↔ other = id ∨ other ∈ t.draining := by
  unfold drained
  split
  · next h =>
    have hmem : id ∈ t.draining := List.contains_iff_mem.mp h
    exact ⟨.inr, fun hor => hor.elim (fun heq => heq ▸ hmem) (fun h => h)⟩
  · simp [or_comm]

@[simp] theorem ends_drain {done : Unit → Tracker → Prop} :
    (drain id).Ends moment t done failed ↔ done () (t.drained id) := .rfl

@[simp] theorem ends_removeEntry {done : Option Path → Tracker → Prop} :
    (removeEntry slot).Ends moment t done failed ↔
      match t.table.get? slot with
      | none => done none t
      | some entry => done (some entry.path) { t with table := t.table.erase slot } := by
  rw [removeEntry, ends_bind, ends_state]
  cases t.table.get? slot with
  | none => exact ends_pure
  | some entry => simp

@[simp] theorem ends_moveEntries {source target : Path} {done : Nat → Tracker → Prop} :
    (moveEntries source target).Ends moment t done failed ↔
      done (t.table.slotsBelow source).length { t with
        table := t.table.relocate source target } := by
  simp [moveEntries]

/-- With a watch removed from the source, if the source has it. -/
def released (t : Tracker) (id : WatchId) : Tracker :=
  match t.source.remove id with
  | .ok source => { t with source }
  | .error _ => t

/-- With a watch given up: removed from the source and on its way out, if it is not that already. -/
def relinquished (t : Tracker) (id : WatchId) : Tracker :=
  if t.isDraining id then t else (t.released id).drained id

@[simp] theorem table_relinquished : (t.relinquished id).table = t.table := by
  unfold relinquished released
  split
  · rfl
  · split <;> simp

@[simp] theorem roots_relinquished : (t.relinquished id).roots = t.roots := by
  unfold relinquished released
  split
  · rfl
  · split <;> simp

@[simp] theorem policy_relinquished : (t.relinquished id).policy = t.policy := by
  unfold relinquished released
  split
  · rfl
  · split <;> simp

theorem mem_draining_relinquished : id ∈ (t.relinquished id).draining := by
  unfold relinquished
  split
  · next h => exact List.contains_iff_mem.mp h
  · exact mem_draining_drained.mpr (.inl rfl)

/-- With the entry in a slot given up: its slot free, its watch on its way out, its root retired. -/
def givenUp (t : Tracker) (slot : Nat) : Tracker :=
  match t.table.get? slot with
  | none => t
  | some entry =>
    { t.relinquished entry.id with table := t.table.erase slot }.withoutRoot entry.path

theorem givenUp_of_free (h : t.table.get? slot = none) : t.givenUp slot = t := by
  rw [givenUp, h]

theorem givenUp_of_get? {entry : Entry} (h : t.table.get? slot = some entry) :
    t.givenUp slot =
      { t.relinquished entry.id with table := t.table.erase slot }.withoutRoot entry.path := by
  simp only [givenUp, h]

@[simp] theorem ends_giveUpEntry {done : Unit → Tracker → Prop} :
    (giveUpEntry slot).Ends moment t done failed ↔ done () (t.givenUp slot) := by
  rw [giveUpEntry, ends_bind, ends_state, givenUp]
  cases hslot : t.table.get? slot with
  | none => exact ends_pure
  | some entry =>
    by_cases hdraining : t.isDraining entry.id = true
    · simp [hdraining, hslot, relinquished]
    · rw [Bool.not_eq_true] at hdraining
      cases hremove : t.source.remove entry.id <;>
        simp [hdraining, hremove, hslot, released, relinquished]

def givenUpAll (t : Tracker) (slots : List Nat) : Tracker := slots.foldl givenUp t

@[simp] theorem ends_giveUpEntries {slots : List Nat} {done : Unit → Tracker → Prop} :
    (giveUpEntries slots).Ends moment t done failed ↔ done () (t.givenUpAll slots) := by
  induction slots generalizing t with
  | nil => exact ends_pure
  | cons slot rest ih => rw [giveUpEntries, ends_bind, ends_giveUpEntry, ih]; rfl

/-- With the directory at a path and all below it given up. -/
def withoutSubtree (t : Tracker) (path : Path) : Tracker := t.givenUpAll (t.table.slotsBelow path)

@[simp] theorem ends_giveUpSubtree {done : Nat → Tracker → Prop} :
    (giveUpSubtree path).Ends moment t done failed ↔
      done (t.table.slotsBelow path).length (t.withoutSubtree path) := by
  simp [giveUpSubtree, withoutSubtree]

end Entries

section Departures

def withoutMoved (t : Tracker) (path : Path) : Tracker :=
  let t := t.withoutSubtree path
  { t with counts := { t.counts with movedOut := t.counts.movedOut + 1 } }

@[simp] theorem ends_giveUpMoved {done : Unit → Tracker → Prop} :
    (giveUpMoved path).Ends moment t done failed ↔ done () (t.withoutMoved path) := by
  simp [giveUpMoved, withoutMoved]

@[simp] theorem ends_settle {departure : Departure} {done : Unit → Tracker → Prop} :
    (settle departure).Ends moment t done failed ↔ done () (t.withoutMoved departure.path) := by
  simp [settle]

@[simp] theorem ends_settleAll {waiting : List Departure} {done : Unit → Tracker → Prop} :
    (settleAll waiting).Ends moment t done failed ↔
      done () (waiting.foldl (fun t departure => t.withoutMoved departure.path) t) := by
  induction waiting generalizing t with
  | nil => exact ends_pure
  | cons departure rest ih => rw [settleAll, ends_bind, ends_settle, ih]; rfl

def expired (t : Tracker) : Tracker :=
  t.departures.waiting.foldl (fun t departure => t.withoutMoved departure.path)
    { t with departures := .empty }

@[simp] theorem ends_expire {done : Nat → Tracker → Prop} :
    expire.Ends moment t done failed ↔ done t.departures.size t.expired := by
  simp [expire, expired]

end Departures

section Events

/-- With the slot of a watch free, if it has one, and the root there retired. -/
def withoutWatch (t : Tracker) (id : WatchId) (count : Counts → Counts) : Tracker :=
  match t.table.slotOf? id with
  | none => t
  | some slot =>
    match t.table.get? slot with
    | none => t
    | some entry =>
      { t with table := t.table.erase slot, counts := count t.counts }.withoutRoot entry.path

@[simp] theorem ends_onDeleteSelf {event : Event} {done : Unit → Tracker → Prop} :
    (onDeleteSelf event).Ends moment t done failed ↔
      done () ((t.drained event.watch).withoutWatch event.watch
        fun counts => { counts with deleted := counts.deleted + 1 }) := by
  simp only [onDeleteSelf, ends_bind, ends_drain, ends_state, withoutWatch]
  cases hslot : (t.drained event.watch).table.slotOf? event.watch with
  | none => exact ends_say
  | some slot =>
    simp only [ends_bind, ends_removeEntry]
    cases hget : (t.drained event.watch).table.get? slot with
    | none => exact ends_pure
    | some entry => simp

@[simp] theorem ends_onIgnored {event : Event} {done : Unit → Tracker → Prop} :
    (onIgnored event).Ends moment t done failed ↔
      done () ({ t with draining := t.draining.filter (· != event.watch) }.withoutWatch event.watch
        fun counts => counts) := by
  simp only [onIgnored, ends_bind, ends_change, ends_state, withoutWatch]
  cases hslot : t.table.slotOf? event.watch with
  | none => exact ends_pure
  | some slot =>
    simp only [ends_bind, ends_removeEntry]
    cases hget : t.table.get? slot with
    | none => exact ends_pure
    | some entry => simp

/-- After the move of a watched directory itself: given up if it was a root. -/
def selfMoved (t : Tracker) (id : WatchId) : Tracker :=
  match t.table.pathOf? id with
  | none => t
  | some path => if t.roots.isRoot path then (t.withoutRoot path).withoutSubtree path else t

@[simp] theorem ends_onMoveSelf {event : Event} {done : Unit → Tracker → Prop} :
    (onMoveSelf event).Ends moment t done failed ↔ done () (t.selfMoved event.watch) := by
  rw [onMoveSelf, ends_bind, ends_state, selfMoved]
  cases t.table.pathOf? event.watch with
  | none => exact ends_pure
  | some path =>
    simp only
    split <;> simp

def unmounted (t : Tracker) (id : WatchId) : Tracker :=
  match (t.drained id).table.pathOf? id with
  | none => t.drained id
  | some path => (t.drained id).withoutSubtree path

@[simp] theorem ends_onUnmount {event : Event} {done : Unit → Tracker → Prop} :
    (onUnmount event).Ends moment t done failed ↔ done () (t.unmounted event.watch) := by
  simp only [onUnmount, ends_bind, ends_drain, ends_state, unmounted]
  cases (t.drained event.watch).table.pathOf? event.watch with
  | none => exact ends_pure
  | some path => simp

def counted (t : Tracker) : Tracker :=
  { t with counts := { t.counts with events := t.counts.events + 1 } }

/-- A tracker that has begun with an event: the event is counted, and departures that it does not
complete have ended their wait. -/
def received (t : Tracker) (event : Event) : Tracker :=
  let t := { t with counts := { t.counts with events := t.counts.events + 1 } }
  if !t.departures.isEmpty && !t.completes event then t.expired else t

/-- A relation of a tracker to what becomes of it that holds when one entry is given up, when
departures and counts change, and when one such thing comes after the other. -/
structure GivingUp (R : Tracker → Tracker → Prop) : Prop where
  trans : ∀ {t u v}, R t u → R u v → R t v
  givenUp : ∀ t slot, R t (t.givenUp slot)
  noted : ∀ t departures events movedOut,
    R t { t with departures, counts := { t.counts with events, movedOut } }

namespace GivingUp

variable {R : Tracker → Tracker → Prop} (hR : GivingUp R)

include hR

theorem givenUpAll (t : Tracker) (slots : List Nat) : R t (t.givenUpAll slots) := by
  induction slots generalizing t with
  | nil => exact hR.noted t t.departures _ _
  | cons slot rest ih => exact hR.trans (hR.givenUp t slot) (ih _)

theorem withoutSubtree (t : Tracker) (path : Path) : R t (t.withoutSubtree path) :=
  hR.givenUpAll t _

theorem withoutMoved (t : Tracker) (path : Path) : R t (t.withoutMoved path) :=
  hR.trans (hR.withoutSubtree t path) (hR.noted _ (t.withoutSubtree path).departures _ _)

theorem expired (t : Tracker) : R t t.expired := by
  have hall : ∀ (waiting : List Departure) (t : Tracker),
      R t (waiting.foldl (fun t departure => t.withoutMoved departure.path) t) := by
    intro waiting
    induction waiting with
    | nil => exact fun t => hR.noted t t.departures _ _
    | cons departure rest ih => exact fun t => hR.trans (hR.withoutMoved t departure.path) (ih _)
  exact hR.trans (hR.noted t .empty _ _) (hall _ _)

/-- To begin with an event is to give up entries and to count. -/
theorem received (t : Tracker) (event : Event) : R t (t.received event) := by
  have hcount := hR.noted t t.departures (t.counts.events + 1) t.counts.movedOut
  rw [Tracker.received]
  split
  · exact hR.trans hcount (hR.expired _)
  · exact hcount

end GivingUp

@[simp] theorem policy_givenUp : (t.givenUp slot).policy = t.policy := by
  cases hget : t.table.get? slot with
  | none => rw [givenUp_of_free hget]
  | some entry => simp [givenUp_of_get? hget]

@[simp] theorem policy_received {event : Event} : (t.received event).policy = t.policy :=
  GivingUp.received (R := fun t u => u.policy = t.policy)
    ⟨fun h h' => h'.trans h, fun _ _ => policy_givenUp, fun _ _ _ _ => rfl⟩ t event

theorem live_givenUp_sublist (t : Tracker) (slot : Nat) :
    (t.givenUp slot).roots.live.Sublist t.roots.live := by
  cases hget : t.table.get? slot with
  | none => rw [givenUp_of_free hget]
  | some entry =>
    rw [givenUp_of_get? hget, live_withoutRoot]
    simp only [roots_relinquished]
    exact List.eraseP_sublist

theorem live_received_sublist (t : Tracker) (event : Event) :
    (t.received event).roots.live.Sublist t.roots.live :=
  GivingUp.received (R := fun t u => u.roots.live.Sublist t.roots.live)
    ⟨fun h h' => h'.trans h, live_givenUp_sublist, fun _ _ _ _ => List.Sublist.refl _⟩ t event

/-- Handling an event is to begin with it, and to apply it unless it comes too late. -/
theorem ends_handle {event : Event} {done : Flow → Tracker → Prop} :
    (handle event).Ends moment t done failed ↔
      if (t.received event).isStale event then
        done (t.received event).flow
          { t.received event with
            counts := { (t.received event).counts with
              stale := (t.received event).counts.stale + 1 } }
      else (applyEvent event).Ends moment (t.received event) (fun _ u => done u.flow u) failed := by
  have hrest : ∀ u : Tracker,
      (do
        let tracker ← state
        if tracker.isStale event then
          change fun tracker =>
            { tracker with counts := { tracker.counts with stale := tracker.counts.stale + 1 } }
          say [.debug .events
            s!"watch {event.watch.text} is being removed, ignoring {event.kind.label}"]
        else applyEvent event
        let tracker ← state
        pure tracker.flow : Action Tracker Flow).Ends moment u done failed ↔
      if u.isStale event then
        done u.flow { u with counts := { u.counts with stale := u.counts.stale + 1 } }
      else (applyEvent event).Ends moment u (fun _ u => done u.flow u) failed := by
    intro u
    rw [ends_bind, ends_state]
    split
    · simp [flow]
    · simp
  simp only [handle, ends_bind, ends_change, ends_say, ends_state, received]
  split
  · rw [ends_bind, ends_expire]
    exact hrest _
  · exact hrest _

/-- Takes the next event and handles it; none if none waits. -/
def pump : Action Tracker (Option Flow) := do
  match ← takeEvent with
  | none => pure none
  | some event =>
    let flow ← handle event
    pure (some flow)

end Events

end Tracker

end TreeWatch
