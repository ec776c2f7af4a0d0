import TreeWatch.CommandLine.Switch
import TreeWatch.Settings.Document
import TreeWatch.Text.Terminal

/-!
# Command lines

What a command line says once it is read: the roots, and for each setting whether it was given and
as what. The ways in which a command line can be wrong are told apart, and each has its message.
-/

namespace TreeWatch

structure CommandLine where
  roots : List Path
  /-- The file that settings are read from, instead of the usual one. -/
  config : Option Path
  verbosity : Option Log.Mask
  logFile : Option Path
  rebuildsOnProblem : Bool
  abortsOnProblem : Bool
  stopFile : Option Path
  overflow : Option OverflowPolicy
  checkInterval : Option Nat
  maxChecks : Option Nat
  duration : Option Nat
  renameWindow : Option Nat
  deriving DecidableEq, Repr

namespace CommandLine

def empty : CommandLine :=
  ⟨[], none, none, none, false, false, none, none, none, none, none, none⟩

inductive UsageError where
  | unknownArgument (text : Bytes)
  /-- A switch was given twice. -/
  | repeated (switch : Switch)
  | conflicting (first second : Switch)
  /-- There is no value, or an empty one where a path is wanted; without a switch, for a root. -/
  | valueMissing (switch : Option Switch)
  /-- A value was given to a switch that takes none. -/
  | valueUnneeded (switch : Switch) (value : Bytes)
  | valueRefused (switch : Switch) (value : List Char) (reason : String)
  | notText
  | rootsMissing
  deriving DecidableEq, Repr

/-- How roots are shown to the user. -/
def rootsHeading : String := "<ROOTS>..."

/-- The whole message, without what a terminal would act on. -/
def UsageError.message (error : UsageError) : String :=
  let text :=
    match error with
    | .unknownArgument text => s!"unexpected argument '{text.display}' found"
    | .repeated switch => s!"the argument '{switch.heading}' cannot be used multiple times"
    | .conflicting first second =>
      s!"the argument '{first.heading}' cannot be used with '{second.heading}'"
    | .valueMissing switch =>
      let heading := (switch.map Switch.heading).getD rootsHeading
      s!"a value is required for '{heading}' but none was supplied"
    | .valueUnneeded switch value =>
      s!"unexpected value '{value.display}' for '{switch.heading}' found; no more were expected"
    | .valueRefused switch value reason =>
      s!"invalid value '{String.ofList value}' for '{switch.heading}': {reason}"
    | .notText => "invalid UTF-8 was detected in one or more arguments"
    | .rootsMissing =>
      s!"the following required arguments were not provided:\n  {rootsHeading}"
  .ofList (Terminal.visible .shown s!"error: {text}".toList)

def UsageError.firstLine (error : UsageError) : String :=
  .ofList ((textLines error.message.toList).head?.getD [])

/-! ## Values -/

/-- The first number that is too large for a value. -/
def numberLimit : Nat := Nat.pow 2 64

def text (value : Bytes) : Except UsageError (List Char) :=
  match Utf8.decode? value with
  | some chars => .ok chars
  | none => .error .notText

/-- A value as a path, which is not empty. -/
def path (switch : Option Switch) (value : Bytes) : Except UsageError Path :=
  if value.isEmpty then .error (.valueMissing switch) else .ok ⟨value⟩

def number (switch : Switch) (value : Bytes) : Except UsageError Nat := do
  let chars ← text value
  match Numeral.read 10 numberLimit chars with
  | .ok n => .ok n
  | .error error => .error (.valueRefused switch chars error.message)

def mask (switch : Switch) (value : Bytes) : Except UsageError Log.Mask := do
  let chars ← text value
  match Log.Mask.read chars with
  | .ok mask => .ok mask
  | .error error =>
    .error (.valueRefused switch chars s!"invalid mask {quote chars}: {error.message}")

def overflowPolicy (switch : Switch) (value : Bytes) : Except UsageError OverflowPolicy := do
  let chars ← text value
  match OverflowPolicy.ofName? chars with
  | some policy => .ok policy
  | none => .error (.valueRefused switch chars s!"expected rescan or abort, got {quote chars}")

/-- The command line after a value was given to a switch that takes one. -/
def assign (line : CommandLine) (switch : Switch) (value : Bytes) :
    Except UsageError CommandLine :=
  match switch with
  | .config => (path switch value).map fun path => { line with config := some path }
  | .verbosity => (mask switch value).map fun mask => { line with verbosity := some mask }
  | .logFile => (path switch value).map fun path => { line with logFile := some path }
  | .stopFile => (path switch value).map fun path => { line with stopFile := some path }
  | .overflow =>
    (overflowPolicy switch value).map fun policy => { line with overflow := some policy }
  | .checkInterval => (number switch value).map fun n => { line with checkInterval := some n }
  | .maxChecks => (number switch value).map fun n => { line with maxChecks := some n }
  | .duration => (number switch value).map fun n => { line with duration := some n }
  | .renameWindow => (number switch value).map fun n => { line with renameWindow := some n }
  | .rebuildOnProblem | .abortOnProblem | .help | .version =>
    .error (.valueUnneeded switch value)

def raise (line : CommandLine) (switch : Switch) : CommandLine :=
  match switch with
  | .rebuildOnProblem => { line with rebuildsOnProblem := true }
  | .abortOnProblem => { line with abortsOnProblem := true }
  | _ => line

end CommandLine

end TreeWatch
