import TreeWatch.Proofs.FileTree.Finding
import TreeWatch.Proofs.Source.Registry
import TreeWatch.Proofs.Tracker.Effects
import TreeWatch.Proofs.WatchTable.Entries
import TreeWatch.Session.Basic

/-!
# Asking the source

How actions that need the source come down to what the source answers: asking for a watch, taking an
event, starting over. What a source was asked for it gives again, so a walk that begins with a
directory just asked for is as good as one from before the question.
-/

namespace TreeWatch

namespace Tracker

open TreeWatch.Action

variable {moment : Moment} {t : Tracker} {failed : Fault → Tracker → Prop} {path : Path}

theorem ends_requestWatch {done : Option WatchId → Tracker → Prop} :
    (requestWatch path).Ends moment t done failed ↔
      match t.source.add moment.tree path with
      | .ok (id, source) => done (some id) { t with source }
      | .error error =>
        if moment.tree.isDirectory path then failed (.source error) t else done none t := by
  simp only [requestWatch, ends_bind, ends_tree, ends_state]
  cases hadd : t.source.add moment.tree path with
  | ok found => simp
  | error error =>
    simp only
    split <;> simp

theorem ends_addEntry {id : WatchId} {done : Unit → Tracker → Prop} :
    (addEntry id path).Ends moment t done failed ↔
      match t.table.insert? id path with
      | some (_, table) => done () { t with table }
      | none => failed (.noRoom t.table.capacity) t := by
  rw [addEntry, ends_bind, ends_state]
  cases t.table.insert? id path with
  | none => exact ends_fail
  | some next => simp

theorem ends_coverSubtree {done : Nat → Tracker → Prop} :
    (coverSubtree path).Ends moment t done failed ↔
      (watchItems path (moment.tree.walk path)).Ends moment t done failed := by
  simp [coverSubtree]

theorem ends_watchDirectory_of_add {id : WatchId} {source : Source}
    (h : t.source.add moment.tree path = .ok (id, source))
    {done : Option Watched → Tracker → Prop} :
    (watchDirectory path).Ends moment { t with source } done failed ↔
      (watchDirectory path).Ends moment t done failed := by
  simp only [watchDirectory, ends_bind, ends_requestWatch, h, Source.add_again h]

theorem walk_of_inspect {tree : FileTree} {directory : DirectoryId}
    (h : tree.inspect path = .ok (.directory directory)) :
    ∃ rest, tree.walk path = .entry path true :: rest := by
  obtain ⟨location, hfind⟩ := FileTree.inspect_eq_ok_iff.mp h
  rw [FileTree.walk, hfind]
  exact ⟨_, rfl⟩

/-- Covering a subtree does not mind that its top was just asked for. -/
theorem ends_coverSubtree_of_add {id : WatchId} {source : Source}
    (h : t.source.add moment.tree path = .ok (id, source)) {done : Nat → Tracker → Prop} :
    (coverSubtree path).Ends moment { t with source } done failed ↔
      (coverSubtree path).Ends moment t done failed := by
  obtain ⟨directory, hinspect, -⟩ := Source.mem_live_of_add h
  obtain ⟨rest, hwalk⟩ := walk_of_inspect hinspect
  rw [ends_coverSubtree, ends_coverSubtree, hwalk, watchItems, ends_bind, ends_bind,
    ends_watchDirectory_of_add h]

/-- With nothing left but the roots and the counts. -/
def wiped (t : Tracker) : Tracker :=
  cleared { t.source with live := [], queue := [], resets := t.source.resets + 1 } t

@[simp] theorem entries_wiped (t : Tracker) : t.wiped.table.entries = [] :=
  WatchTable.entries_clear t.table

theorem ends_rebuild {done : Nat → Tracker → Prop} :
    rebuild.Ends moment t done failed ↔
      if t.source.refusesReset then failed (.source .resetRefused) t
      else cover.Ends moment t.wiped done failed := by
  rw [rebuild, ends_bind, ends_state, ends_bind, ends_say, Source.reset]
  by_cases hrefuses : t.source.refusesReset = true
  · simp [hrefuses]
  · simp [hrefuses, wiped]

theorem ends_start {done : Flow → Tracker → Prop} :
    start.Ends moment t done failed ↔ cover.Ends moment t (fun _ u => done u.flow u) failed := by
  simp [start]

theorem ends_resolveDistrust {why : Distrust} {done : Unit → Tracker → Prop} :
    (resolveDistrust why).Ends moment t done failed ↔
      if t.policy.abortsOnProblem then failed (.diverged why) t
      else rebuild.Ends moment t (fun _ u => done () u) failed := by
  rw [resolveDistrust, ends_bind, ends_state]
  split
  · exact ends_fail
  · simp only [ends_bind, ends_say]
    exact .rfl

def overran (t : Tracker) : Tracker :=
  { t with counts := { t.counts with overflows := t.counts.overflows + 1 } }

theorem ends_onOverflow {done : Unit → Tracker → Prop} :
    onOverflow.Ends moment t done failed ↔
      match t.policy.overflow with
      | .abort => failed (.diverged .overflow) t.overran
      | .rescan => rebuild.Ends moment t.overran (fun _ u => done () u) failed := by
  simp only [onOverflow, ends_bind, ends_change, ends_say, ends_state]
  cases t.policy.overflow with
  | abort => exact .rfl
  | rescan => exact ends_bind

theorem ends_check {done : Audit.Report → Tracker → Prop} :
    check.Ends moment t done failed ↔
      match (Audit.run moment.tree t.table).distrust? with
      | some why => (resolveDistrust why).Ends moment t
          (fun _ u => done (Audit.run moment.tree t.table) u) failed
      | none => done (Audit.run moment.tree t.table) t := by
  simp only [check, ends_bind, ends_tree, ends_state, ends_say]
  cases (Audit.run moment.tree t.table).distrust? <;> simp

theorem ends_requireSlot {id : WatchId} {done : Option Nat → Tracker → Prop} :
    (requireSlot id).Ends moment t done failed ↔
      match t.table.slotOf? id with
      | some slot => done (some slot) t
      | none => (resolveDistrust (.unknownWatch id)).Ends moment t (fun _ u =>
        done none u) failed := by
  rw [requireSlot, ends_bind, ends_state, WatchTable.checkedSlot]
  cases t.table.slotOf? id with
  | some slot => exact ends_pure
  | none => simp

theorem ends_subject {event : Event} {done : Option Path → Tracker → Prop} :
    (subject event).Ends moment t done failed ↔
      match event.name with
      | none => done none t
      | some name =>
        match t.table.slotOf? event.watch with
        | some slot => done ((t.table.get? slot).map (·.path.child name)) t
        | none => (resolveDistrust (.unknownWatch event.watch)).Ends moment t
            (fun _ u => done none u) failed := by
  unfold subject
  cases event.name with
  | none => simp
  | some name =>
    simp only [ends_bind, ends_requireSlot]
    cases t.table.slotOf? event.watch <;> simp

theorem ends_subject_of {event : Event} {done : Option Path → Tracker → Prop}
    (hnone : event.name = none → done none t)
    (hsome : ∀ entry ∈ t.table.entries, entry.id = event.watch → ∀ name, event.name = some name →
      done (some (entry.path.child name)) t)
    (hdistrust : t.table.slotOf? event.watch = none →
      (resolveDistrust (.unknownWatch event.watch)).Ends moment t (fun _ u => done none u) failed) :
    (subject event).Ends moment t done failed := by
  rw [ends_subject]
  cases hname : event.name with
  | none => exact hnone hname
  | some name =>
    cases hslot : t.table.slotOf? event.watch with
    | none => exact hdistrust hslot
    | some slot =>
      obtain ⟨entry, hget, hid⟩ := WatchTable.slotOf?_eq_some hslot
      simp only [hget, Option.map_some]
      exact hsome entry (WatchTable.mem_entries_of_get? hget) hid name hname

theorem ends_claim {cookie : Option Nat} {done : Option Departure → Tracker → Prop} :
    (claim cookie).Ends moment t done failed ↔
      match cookie with
      | none => done none t
      | some cookie =>
        done (t.departures.get? cookie) { t with departures := t.departures.erase cookie } := by
  rw [claim, ends_bind, ends_state]
  cases cookie with
  | none => exact ends_pure
  | some cookie => simp

theorem ends_takeEvent {done : Option Event → Tracker → Prop} :
    takeEvent.Ends moment t done failed ↔
      match t.source.next? with
      | none => done none t
      | some (event, source) => done (some event) { t with source } := by
  rw [takeEvent, ends_bind, ends_state]
  cases t.source.next? with
  | none => exact ends_pure
  | some next => simp

theorem ends_pump {done : Option Flow → Tracker → Prop} :
    pump.Ends moment t done failed ↔
      match t.source.next? with
      | none => done none t
      | some (event, source) =>
        (handle event).Ends moment { t with source } (fun flow u => done (some flow) u) failed := by
  rw [pump, ends_bind, ends_takeEvent]
  cases t.source.next? with
  | none => exact ends_pure
  | some next => simp

end Tracker

end TreeWatch
