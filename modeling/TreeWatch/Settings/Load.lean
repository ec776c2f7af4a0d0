import TreeWatch.FileTree.Resolve
import TreeWatch.Settings.Document

/-!
# Loading settings

Settings are read from a file that was named, or from the usual place below the home directory. A
file that is not there is as good as an empty one; a file that is there has to be right.
-/

namespace TreeWatch

/-- What surrounds a run: the variables that tell where settings are kept. -/
structure Surroundings where
  home : Option Path
  /-- The directory for settings, if one was set. -/
  configHome : Option Path
  deriving DecidableEq, Repr

inductive SettingsError where
  | unreadable (path : Path) (error : IoError)
  | malformed (path : Path)
  /-- The settings in a file. -/
  | fileOutOfRange (path : Path) (error : RangeError)
  /-- The settings as the command line leaves them. -/
  | outOfRange (error : RangeError)
  deriving DecidableEq, Repr

/-- What went wrong in the first place, without its cause. -/
def SettingsError.headline : SettingsError → String
  | .unreadable path _ => s!"Failed to read config at {path.display}"
  | .malformed path => s!"Failed to parse config at {path.display}"
  | .fileOutOfRange path _ => s!"Invalid config at {path.display}"
  | .outOfRange _ => "Invalid options"

/-- What went wrong and why, as far as that is told. -/
def SettingsError.message (error : SettingsError) : String :=
  match error with
  | .unreadable _ cause => s!"{error.headline}: {cause.message}"
  | .malformed _ => error.headline
  | .fileOutOfRange _ cause => s!"{error.headline}: {cause.message}"
  | .outOfRange cause => s!"{error.headline}: {cause.message}"

namespace Surroundings

/-- The directory for settings: the one that was set, if its path is absolute, else the usual
one. -/
def configDirectory? (surroundings : Surroundings) : Option Path :=
  match surroundings.configHome.filter Path.isAbsolute with
  | some directory => some directory
  | none =>
    (surroundings.home.filter fun home => !home.isEmpty).map (·.join (.ofString ".config"))

def settingsPath? (surroundings : Surroundings) : Option Path :=
  surroundings.configDirectory?.map fun directory =>
    (directory.join (.ofString "dtree")).join (.ofString "config.toml")

end Surroundings

namespace Settings

def load (tree : FileTree) (path : Path) : Except SettingsError Settings :=
  if !tree.holds path then .ok default
  else
    match tree.readText path with
    | .error error => .error (.unreadable path error)
    | .ok text =>
      match ofDocument? text with
      | none => .error (.malformed path)
      | some settings =>
        match settings.rangeError? with
        | some error => .error (.fileOutOfRange path error)
        | none => .ok settings

def loadUsual (tree : FileTree) (surroundings : Surroundings) : Except SettingsError Settings :=
  match surroundings.settingsPath? with
  | some path => load tree path
  | none => .ok default

end Settings

end TreeWatch
