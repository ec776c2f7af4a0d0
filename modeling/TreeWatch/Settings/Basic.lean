import TreeWatch.Log.Mask
import TreeWatch.Session.Basic

/-!
# Settings

Everything that can be set about a run, with what holds where nothing is set, and the ranges that
values have to keep.
-/

namespace TreeWatch

structure Settings where
  /-- The categories of debug output. -/
  verbosity : Log.Mask
  /-- A file for the log, besides the console. -/
  logFile : Option Path
  /-- Whether a problem with the table ends the run; otherwise the table is rebuilt. -/
  abortsOnProblem : Bool
  /-- A file that is made before the run is aborted. -/
  stopFile : Option Path
  overflow : OverflowPolicy
  /-- Seconds between audits; zero for audits on command only. -/
  checkInterval : Nat
  /-- The number of audits after which the run ends; zero for no limit. -/
  maxChecks : Nat
  /-- The seconds after which the run ends; zero for no limit. -/
  duration : Nat
  /-- The milliseconds that a departure waits for its second half. -/
  renameWindow : Nat
  deriving DecidableEq, Repr

inductive RangeError where
  | renameWindow (value : Nat)
  | checksWithoutInterval
  deriving DecidableEq, Repr

def RangeError.message : RangeError → String
  | .renameWindow value => s!"rename_window_ms must be between 1 and 10000 (got {value})"
  | .checksWithoutInterval => "max_checks requires a non-zero check_interval_secs"

namespace Settings

def default : Settings where
  verbosity := 0
  logFile := none
  abortsOnProblem := true
  stopFile := none
  overflow := .rescan
  checkInterval := 0
  maxChecks := 0
  duration := 0
  renameWindow := 50

/-- The longest time, in milliseconds, that a departure may wait. -/
def longestWindow : Nat := 10000

def rangeError? (settings : Settings) : Option RangeError :=
  if settings.renameWindow = 0 ∨ longestWindow < settings.renameWindow then
    some (.renameWindow settings.renameWindow)
  else if 0 < settings.maxChecks ∧ settings.checkInterval = 0 then some .checksWithoutInterval
  else none

def unlessZero (n : Nat) : Option Nat := if n = 0 then none else some n

def policy (settings : Settings) : Policy := ⟨settings.abortsOnProblem, settings.overflow⟩

/-- The seconds between audits. -/
def checkSeconds? (settings : Settings) : Option Nat := unlessZero settings.checkInterval

def checkLimit? (settings : Settings) : Option Nat := unlessZero settings.maxChecks

/-- The seconds after which the run ends. -/
def durationSeconds? (settings : Settings) : Option Nat := unlessZero settings.duration

def sessionOptions (settings : Settings) : SessionOptions where
  renameWindow := settings.renameWindow
  checkInterval := settings.checkSeconds?.map (· * 1000)
  maxChecks := settings.checkLimit?
  duration := settings.durationSeconds?.map (· * 1000)

end Settings

end TreeWatch
