import TreeWatch.Tracker.Coverage

/-!
# Handling events

What each event means for a tracker. Between the halves of a rename nothing else may come: any event
that is not the second half of a waiting departure ends the wait, and what departed counts as gone.
-/

namespace TreeWatch

namespace Tracker

open TreeWatch.Action

/-- Gives up a subtree that left the watched trees. -/
def giveUpMoved (path : Path) : Action Tracker Unit := do
  let dropped ← giveUpSubtree path
  change fun tracker =>
    { tracker with counts := { tracker.counts with movedOut := tracker.counts.movedOut + 1 } }
  say [.debug .renames s!"{path.display} moved out of scope ({dropped} entries dropped)"]

/-- Gives up what departed, since no second half came. -/
def settle (departure : Departure) : Action Tracker Unit := do
  say [.debug .renames
    (s!"cookie {departure.cookie}: no partner for {departure.path.display} " ++
      s!"(left watch {departure.parent.text})")]
  giveUpMoved departure.path

def settleAll : List Departure → Action Tracker Unit
  | [] => pure ()
  | departure :: rest => do
    settle departure
    settleAll rest

def expire : Action Tracker Nat := do
  let tracker ← state
  change fun tracker => { tracker with departures := .empty }
  settleAll tracker.departures.waiting
  pure tracker.departures.size

/-- The slot of a watch that the table has to have; none if the lack of it led to a rebuild. -/
def requireSlot (id : WatchId) : Action Tracker (Option Nat) := do
  let tracker ← state
  match tracker.table.checkedSlot id with
  | .ok slot => pure (some slot)
  | .error why =>
    resolveDistrust why
    pure none

/-- The path of the entry that an event on its directory names; none if the event has nothing to
apply to any more. -/
def subject (event : Event) : Action Tracker (Option Path) :=
  match event.name with
  | none => do
    say [.warn s!"{event.kind.label} on watch {event.watch.text} carries no name, ignoring"]
    pure none
  | some name => do
    let some slot ← requireSlot event.watch | pure none
    let tracker ← state
    pure ((tracker.table.get? slot).map (·.path.child name))

def welcome (path : Path) : Action Tracker Unit := do
  let watched ← coverSubtree path
  if watched > 0 then
    change fun tracker =>
      { tracker with counts := { tracker.counts with created := tracker.counts.created + 1 } }

def onCreate (event : Event) : Action Tracker Unit := do
  if event.isDirectory then
    let some path ← subject event | pure ()
    welcome path

def onDeleteSelf (event : Event) : Action Tracker Unit := do
  drain event.watch
  let tracker ← state
  match tracker.table.slotOf? event.watch with
  | none => say [.debug .cache s!"deleted watch {event.watch.text} is not cached"]
  | some slot =>
    let some path ← removeEntry slot | pure ()
    change fun tracker =>
      { tracker with counts := { tracker.counts with deleted := tracker.counts.deleted + 1 } }
    retireRoot path

/-- A root that moved is retired and given up. Other moves are told by the parents of what moved. -/
def onMoveSelf (event : Event) : Action Tracker Unit := do
  let tracker ← state
  match tracker.table.pathOf? event.watch with
  | none => pure ()
  | some path =>
    if tracker.roots.isRoot path then
      retireRoot path
      let _ ← giveUpSubtree path

/-- What left without a cookie has no second half and is gone at once. -/
def onMovedFrom (event : Event) : Action Tracker Unit := do
  if event.isDirectory then
    let some path ← subject event | pure ()
    match event.cookie with
    | none => giveUpMoved path
    | some cookie =>
      say [.debug .renames s!"cookie {cookie}: {path.display} left watch {event.watch.text}"]
      let now ← now
      let tracker ← state
      change fun tracker =>
        { tracker with departures := tracker.departures.insert ⟨cookie, event.watch, path, now⟩ }
      match tracker.departures.get? cookie with
      | some superseded => settle superseded
      | none => pure ()

/-- Completes a rename inside the watched trees. The entry at the old path may belong to a directory
made there after the move, so entries move only if it is the very directory that is at the new path
now. -/
def rename (source target : Path) : Action Tracker Unit := do
  change fun tracker =>
    { tracker with counts := { tracker.counts with renamed := tracker.counts.renamed + 1 } }
  let before ← state
  let cached := before.table.idAt? source
  match ← requestWatch target with
  | none =>
    say [.debug .renames
      s!"rename {source.display} -> {target.display}: destination is already gone"]
    if cached.isSome then
      let _ ← moveEntries source target
      retireRoot source
  | some id =>
    if cached = some id then
      let moved ← moveEntries source target
      say [.debug .renames s!"renamed {source.display} -> {target.display} ({moved} entries)"]
      retireRoot source
    else
      say [.debug .renames <|
        s!"{source.display} is not the directory renamed to {target.display}, " ++
          "watching the destination afresh"]
      let _ ← coverSubtree target

/-- Claims the departure that an arrival belongs to. -/
def claim (cookie : Option Nat) : Action Tracker (Option Departure) := do
  let tracker ← state
  match cookie with
  | none => pure none
  | some cookie =>
    change fun tracker => { tracker with departures := tracker.departures.erase cookie }
    pure (tracker.departures.get? cookie)

def onMovedTo (event : Event) : Action Tracker Unit := do
  if event.isDirectory then
    let some path ← subject event | pure ()
    match ← claim event.cookie with
    | some departure => rename departure.path path
    | none =>
      say [.debug .renames s!"{path.display} moved in from outside the watched trees"]
      welcome path

def onOverflow : Action Tracker Unit := do
  change fun tracker =>
    { tracker with counts := { tracker.counts with overflows := tracker.counts.overflows + 1 } }
  say [.warn Distrust.overflow.message]
  let tracker ← state
  match tracker.policy.overflow with
  | .abort => fail (.diverged .overflow)
  | .rescan =>
    let _ ← rebuild

def onIgnored (event : Event) : Action Tracker Unit := do
  change fun tracker => { tracker with draining := tracker.draining.filter (· != event.watch) }
  let tracker ← state
  match tracker.table.slotOf? event.watch with
  | none => pure ()
  | some slot =>
    let some path ← removeEntry slot | pure ()
    retireRoot path

def onUnmount (event : Event) : Action Tracker Unit := do
  drain event.watch
  let tracker ← state
  match tracker.table.pathOf? event.watch with
  | none => pure ()
  | some path =>
    say [.info s!"file system under {path.display} was unmounted"]
    let _ ← giveUpSubtree path

/-- Whether an event is the second half of a rename whose first half waits. -/
def completes (tracker : Tracker) (event : Event) : Bool :=
  event.kind == .movedTo && event.cookie.any tracker.departures.contains

/-- Whether an event comes too late to count. -/
def isStale (tracker : Tracker) (event : Event) : Bool :=
  event.kind != .ignored && event.kind != .overflow && tracker.isDraining event.watch

def applyEvent (event : Event) : Action Tracker Unit :=
  match event.kind with
  | .create => onCreate event
  | .deleteSelf => onDeleteSelf event
  | .moveSelf => onMoveSelf event
  | .movedFrom => onMovedFrom event
  | .movedTo => onMovedTo event
  | .overflow => onOverflow
  | .ignored => onIgnored event
  | .unmount => onUnmount event
  | .other => pure ()

def handle (event : Event) : Action Tracker Flow := do
  change fun tracker =>
    { tracker with counts := { tracker.counts with events := tracker.counts.events + 1 } }
  say [.debug .events event.describe]
  let tracker ← state
  if !tracker.departures.isEmpty && !tracker.completes event then
    let _ ← expire
  let tracker ← state
  if tracker.isStale event then
    change fun tracker =>
      { tracker with counts := { tracker.counts with stale := tracker.counts.stale + 1 } }
    say [.debug .events
      s!"watch {event.watch.text} is being removed, ignoring {event.kind.label}"]
  else applyEvent event
  let tracker ← state
  pure tracker.flow

/-- Takes the next event from the source; none if none waits. -/
def takeEvent : Action Tracker (Option Event) := do
  let tracker ← state
  match tracker.source.next? with
  | none => pure none
  | some (event, source) =>
    change fun tracker => { tracker with source }
    pure (some event)

end Tracker

end TreeWatch
