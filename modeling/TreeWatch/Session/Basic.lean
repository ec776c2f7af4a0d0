import TreeWatch.Alarm
import TreeWatch.Control
import TreeWatch.Tracker.Handling

/-!
# Sessions

A session runs a tracker until there is a reason to stop. It sleeps until something wakes it: the
event source, the end of the time that a departure may wait, a due audit, a command, or the end of
its own time. Each wake is handled to the end before the next, so an audit never sees a table half
changed.
-/

namespace TreeWatch

/-- The times and limits of a session; times are in milliseconds. -/
structure SessionOptions where
  /-- How long a departure may wait for its second half. -/
  renameWindow : Nat
  /-- The time between audits that come by themselves. -/
  checkInterval : Option Nat
  /-- After how many of these the session stops. -/
  maxChecks : Option Nat
  /-- After what time the session stops. -/
  duration : Option Nat
  deriving DecidableEq, Repr

inductive Outcome where
  | rootsExhausted
  | quit
  | deadlineReached
  | checksCompleted
  | sourceClosed
  deriving DecidableEq, Repr

def Outcome.label : Outcome → String
  | .rootsExhausted => "RootsExhausted"
  | .quit => "Quit"
  | .deadlineReached => "DeadlineReached"
  | .checksCompleted => "ChecksCompleted"
  | .sourceClosed => "SourceClosed"

inductive Wake where
  /-- The source has an event, has ended, or has failed. -/
  | source
  /-- A departure has waited long enough. -/
  | windowElapsed
  | checkDue
  | command (command : Control.Command)
  /-- There will be no more commands. -/
  | commandsClosed
  | deadline
  deriving DecidableEq, Repr

structure Session where
  tracker : Tracker
  options : SessionOptions
  /-- How many audits came by themselves and found nothing that stopped the session. -/
  checksRun : Nat
  deriving Repr

namespace Session

open TreeWatch.Action

def ofTracker (tracker : Tracker) (options : SessionOptions) : Session := ⟨tracker, options, 0⟩

def onTracker {α : Type} (x : Action Tracker α) : Action Session α :=
  onPart (·.tracker) (fun tracker session => { session with tracker }) x

/-- Stops once no root is live. -/
def stopIfExhausted : Action Session (Option Outcome) := do
  let session ← state
  pure (if session.tracker.flow = .rootsExhausted then some .rootsExhausted else none)

def expire : Action Session (Option Outcome) := do
  let _ ← onTracker Tracker.expire
  pure none

/-- Takes what the source has. The end of the source ends the wait of departures first, if any
waits. -/
def onSource : Action Session (Option Outcome) := do
  let session ← state
  if session.tracker.source.queue.isEmpty && session.tracker.source.failing then
    fail (.source .eventsFailed)
  else
    match ← onTracker Tracker.takeEvent with
    | some event =>
      match ← onTracker (Tracker.handle event) with
      | .goesOn => pure none
      | .rootsExhausted => pure (some .rootsExhausted)
    | none => if session.tracker.departures.isEmpty then pure (some .sourceClosed) else expire

/-- Runs an audit that came by itself, and counts it. -/
def onCheckDue : Action Session (Option Outcome) := do
  let _ ← onTracker Tracker.check
  change fun session => { session with checksRun := session.checksRun + 1 }
  let session ← state
  if session.tracker.flow = .rootsExhausted then pure (some .rootsExhausted)
  else
    pure (if session.options.maxChecks.any (· ≤ session.checksRun) then some .checksCompleted
      else none)

def lookupLine (table : WatchTable) (path : Path) : Log.Line :=
  match table.idAt? path with
  | some id => .info s!"{path.display}: watch {id.text}"
  | none => .info s!"{path.display}: not in the cache"

def onCommand : Control.Command → Action Session (Option Outcome)
  | .check => do
    let _ ← onTracker Tracker.check
    stopIfExhausted
  | .dump => do
    let session ← state
    say (Alarm.listingLines false session.tracker.table)
    stopIfExhausted
  | .rebuild => do
    let _ ← onTracker Tracker.rebuild
    stopIfExhausted
  | .lookup path => do
    let session ← state
    say [lookupLine session.tracker.table path]
    stopIfExhausted
  | .quit => pure (some .quit)

/-- Handles one wake; a value is the reason to stop. -/
def handle : Wake → Action Session (Option Outcome)
  | .source => onSource
  | .windowElapsed => expire
  | .checkDue => onCheckDue
  | .command command => onCommand command
  | .commandsClosed => pure none
  | .deadline => pure (some .deadlineReached)

end Session

end TreeWatch
