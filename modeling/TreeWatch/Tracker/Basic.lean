import TreeWatch.Departures
import TreeWatch.Roots
import TreeWatch.Source

/-!
# Trackers

A tracker keeps a watch table in step with the directory trees below its roots. It owns everything
that this takes: the event source, the table, the roots, the departures that wait for their second
half, and the watches that are on their way out and whose events no longer count.
-/

namespace TreeWatch

/-- What to do when the event queue ran over. -/
inductive OverflowPolicy where
  /-- Throw the table away and walk the roots again. -/
  | rescan
  /-- Take the table for lost. -/
  | abort
  deriving DecidableEq, Repr

def OverflowPolicy.label : OverflowPolicy → String
  | .rescan => "rescan"
  | .abort => "abort"

/-- What to do when the table cannot be right. -/
structure Policy where
  /-- Whether a problem with the table ends the work; otherwise the table is rebuilt. -/
  abortsOnProblem : Bool
  overflow : OverflowPolicy
  deriving DecidableEq, Repr

structure Counts where
  /-- Events that were handled. -/
  events : Nat
  /-- Events after which directories came to be watched that were not before. -/
  created : Nat
  deleted : Nat
  renamed : Nat
  /-- Subtrees that left the watched trees. -/
  movedOut : Nat
  /-- Events for watches on their way out. -/
  stale : Nat
  overflows : Nat
  rebuilds : Nat
  rootsRetired : Nat
  deriving DecidableEq, Repr

def Counts.zero : Counts := ⟨0, 0, 0, 0, 0, 0, 0, 0, 0⟩

structure Tracker where
  source : Source
  table : WatchTable
  roots : Roots
  departures : Departures
  /-- Watches that were given up or whose directory is gone, until the source has announced their
  end. -/
  draining : List WatchId
  policy : Policy
  counts : Counts
  deriving Repr

inductive Flow where
  | goesOn
  /-- Every root is retired. -/
  | rootsExhausted
  deriving DecidableEq, Repr

namespace Tracker

def ofRoots (source : Source) (roots : Roots) (policy : Policy) : Tracker :=
  ⟨source, .empty, roots, .empty, [], policy, .zero⟩

def flow (tracker : Tracker) : Flow :=
  if tracker.roots.liveCount = 0 then .rootsExhausted else .goesOn

def isDraining (tracker : Tracker) (id : WatchId) : Bool := tracker.draining.contains id

/-- How long the departure that waits longest may still wait; none if none waits. -/
def departureWait? (tracker : Tracker) (window now : Nat) : Option Nat :=
  tracker.departures.oldest?.map fun since => window - (now - since)

end Tracker

inductive Fault where
  /-- The table is not trusted and the policy is to stop then. -/
  | diverged (why : Distrust)
  /-- There is no room for more slots than there are. -/
  | noRoom (capacity : Nat)
  | source (error : SourceError)
  deriving DecidableEq, Repr

def noRoomMessage (capacity : Nat) : String :=
  s!"failed to grow watch cache beyond {capacity} slots"

def Fault.message : Fault → String
  | .diverged why => s!"watch cache diverged: {why.message}"
  | .noRoom capacity => noRoomMessage capacity
  | .source error => error.message

end TreeWatch
