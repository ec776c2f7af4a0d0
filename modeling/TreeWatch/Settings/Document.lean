import TreeWatch.Settings.Basic
import TreeWatch.Toml.Document
import TreeWatch.Toml.Written

/-!
# Settings as a document

Settings are kept in a TOML document with one key for each. A key that is missing leaves its setting
as it is where nothing is set, and keys that mean nothing are passed over.
-/

namespace TreeWatch

def OverflowPolicy.ofName? (name : List Char) : Option OverflowPolicy :=
  [rescan, abort].find? (·.label.toList == name)

namespace Settings

inductive Key where
  | verbosity
  | logFile
  | abortsOnProblem
  | stopFile
  | overflow
  | checkInterval
  | maxChecks
  | duration
  | renameWindow
  deriving DecidableEq, Repr

def Key.label : Key → String
  | .verbosity => "verbosity"
  | .logFile => "log_file"
  | .abortsOnProblem => "abort_on_cache_problem"
  | .stopFile => "stop_file"
  | .overflow => "overflow"
  | .checkInterval => "check_interval_secs"
  | .maxChecks => "max_checks"
  | .duration => "duration_secs"
  | .renameWindow => "rename_window_ms"

def Key.place (key : Key) : Toml.Place := [.key key.label.toList]

section Reading

variable (contents : Toml.Contents)

/-- The value of a setting: what `read` makes of the node at its key, and `unset` if there is
none. -/
def setting? {α : Type} (key : Key) (unset : α) (read : Toml.Node → Option α) : Option α :=
  match contents.get? key.place with
  | none => some unset
  | some node => read node

def numberBelow? (limit : Nat) : Toml.Node → Option Nat
  | .integer value => if 0 ≤ value ∧ value < limit then some value.toNat else none
  | _ => none

def path? : Toml.Node → Option Path
  | .text chars => some ⟨Utf8.encode chars⟩
  | _ => none

def boolean? : Toml.Node → Option Bool
  | .boolean value => some value
  | _ => none

/-- Whether an array or a table stands at a place and holds nothing. -/
def isVoid (place : Toml.Place) : Bool :=
  match contents.get? place with
  | some .array | some .inlineTable | some (.table _) => (contents.steps place).isEmpty
  | _ => false

/-- An overflow policy is given by its name, or by a table that holds that name alone, with nothing
in it. -/
def overflow? : Toml.Node → Option OverflowPolicy
  | .text chars => OverflowPolicy.ofName? chars
  | .inlineTable | .table _ =>
    match contents.steps Key.overflow.place with
    | [.key name] =>
      if isVoid contents (Key.overflow.place ++ [.key name]) then OverflowPolicy.ofName? name
      else none
    | _ => none
  | _ => none

/-- The first number too large for a document. -/
def numberLimit : Nat := Nat.pow 2 63

/-- The settings that a document holds, if its values are of the right kinds. -/
def ofContents? : Option Settings := do
  let verbosity ← setting? contents .verbosity default.verbosity fun node =>
    (numberBelow? (Nat.pow 2 32) node).map UInt32.ofNat
  let logFile ← setting? contents .logFile none fun node => (path? node).map some
  let abortsOnProblem ← setting? contents .abortsOnProblem default.abortsOnProblem boolean?
  let stopFile ← setting? contents .stopFile none fun node => (path? node).map some
  let overflow ← setting? contents .overflow default.overflow (overflow? contents)
  let checkInterval ←
    setting? contents .checkInterval default.checkInterval (numberBelow? numberLimit)
  let maxChecks ← setting? contents .maxChecks default.maxChecks (numberBelow? numberLimit)
  let duration ← setting? contents .duration default.duration (numberBelow? numberLimit)
  let renameWindow ← setting? contents .renameWindow default.renameWindow (numberBelow? numberLimit)
  some ⟨verbosity, logFile, abortsOnProblem, stopFile, overflow, checkInterval, maxChecks, duration,
    renameWindow⟩

end Reading

def ofDocument? (text : List Char) : Option Settings := do
  let contents ← Toml.read? text
  ofContents? contents

def writtenPath? (path : Path) : Option (List Char) :=
  (Utf8.decode? path.bytes).map Toml.writtenString

/-- The line of a setting that need not be there. -/
def pathLine? (key : Key) : Option Path → Option (List Char)
  | none => some []
  | some path => (writtenPath? path).map (Toml.writtenPair key.label)

def numberLine? (key : Key) (n : Nat) : Option (List Char) :=
  (Toml.writtenNumber? n).map (Toml.writtenPair key.label)

/-- The document that holds the settings, one to a line. There is none if a number is too large for
it or a path is not text. -/
def toDocument? (settings : Settings) : Option (List Char) := do
  let verbosity ← numberLine? .verbosity settings.verbosity.toNat
  let logFile ← pathLine? .logFile settings.logFile
  let abortsOnProblem :=
    Toml.writtenPair Key.abortsOnProblem.label (Toml.writtenBoolean settings.abortsOnProblem)
  let stopFile ← pathLine? .stopFile settings.stopFile
  let overflow :=
    Toml.writtenPair Key.overflow.label (Toml.writtenString settings.overflow.label.toList)
  let checkInterval ← numberLine? .checkInterval settings.checkInterval
  let maxChecks ← numberLine? .maxChecks settings.maxChecks
  let duration ← numberLine? .duration settings.duration
  let renameWindow ← numberLine? .renameWindow settings.renameWindow
  some (verbosity ++ logFile ++ abortsOnProblem ++ stopFile ++ overflow ++ checkInterval ++
    maxChecks ++ duration ++ renameWindow)

end Settings

end TreeWatch
