import TreeWatch.CommandLine.Basic
import TreeWatch.Settings.Load

/-!
# Settings under a command line

What the command line gives holds; what it leaves open comes from the settings file; what that
leaves open is as if nothing were set. The file has to be right by itself, and so has the result.
-/

namespace TreeWatch

namespace CommandLine

/-- Settings with what the command line gives in place of theirs. -/
def overlay (line : CommandLine) (settings : Settings) : Settings where
  verbosity := line.verbosity.getD settings.verbosity
  logFile := line.logFile.or settings.logFile
  abortsOnProblem :=
    line.abortsOnProblem || (!line.rebuildsOnProblem && settings.abortsOnProblem)
  stopFile := line.stopFile.or settings.stopFile
  overflow := line.overflow.getD settings.overflow
  checkInterval := line.checkInterval.getD settings.checkInterval
  maxChecks := line.maxChecks.getD settings.maxChecks
  duration := line.duration.getD settings.duration
  renameWindow := line.renameWindow.getD settings.renameWindow

/-- The settings in the file that the command line names, or in the usual place. -/
def fileSettings (tree : FileTree) (surroundings : Surroundings) (line : CommandLine) :
    Except SettingsError Settings :=
  match line.config with
  | some path => Settings.load tree path
  | none => Settings.loadUsual tree surroundings

def settings (tree : FileTree) (surroundings : Surroundings) (line : CommandLine) :
    Except SettingsError Settings := do
  let file ← fileSettings tree surroundings line
  match (line.overlay file).rangeError? with
  | some error => .error (.outOfRange error)
  | none => .ok (line.overlay file)

end CommandLine

end TreeWatch
