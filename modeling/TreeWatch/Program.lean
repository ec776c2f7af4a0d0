import TreeWatch.CommandLine.Help
import TreeWatch.CommandLine.Read
import TreeWatch.CommandLine.Settings
import TreeWatch.Session.Schedule

/-!
# The program

From the command line to the exit code: settings, log file, roots, a session that takes its commands
from the standard input, and a summary of what it did. Nothing but the program itself changes the
tree while it runs.
-/

namespace TreeWatch

inductive ProgramError where
  | settings (error : SettingsError)
  | logFileUnnamed (path : Path)
  | logDirectory (path : Path) (error : IoError)
  | logFile (path : Path) (error : IoError)
  | roots (error : RootError)
  | fault (error : Fault)
  deriving DecidableEq, Repr

/-- What went wrong, then why, from the outermost cause to the innermost. -/
def ProgramError.message : ProgramError → String
  | .settings error => error.message
  | .logFileUnnamed path => s!"Log file {path.display} has no file name"
  | .logDirectory path error =>
    s!"Failed to open log file {path.display}: failed to create log directory: " ++
      s!"{error.message}: {error.message}"
  | .logFile path error =>
    s!"Failed to open log file {path.display}: failed to create initial log file: " ++
      s!"{error.message}: {error.message}"
  | .roots (.cannotInspect path error) =>
    s!"Invalid roots: {(RootError.cannotInspect path error).message}: {error.message}"
  | .roots error => s!"Invalid roots: {error.message}"
  | .fault error => error.message

/-- What the program is given: its arguments without its own name, what surrounds it, all that comes
in on the standard input, and what the clock shows, in milliseconds. -/
structure Invocation where
  arguments : List Bytes
  surroundings : Surroundings
  input : Bytes
  clock : Nat

structure Report where
  exitCode : Nat
  output : String
  /-- What is said on the standard error after the log. -/
  complaint : String
  /-- The log, as far as the settings let it through. -/
  log : List String
  /-- The time that passed, in milliseconds. -/
  elapsed : Nat
  deriving DecidableEq, Repr

namespace Program

/-- A text in bold and one of the terminal's colours. -/
def emphasised (color : Nat) (text : String) : String :=
  s!"\x1b[1m\x1b[{color}m{text}\x1b[39m\x1b[0m"

def red : Nat := 31

def green : Nat := 32

def reason : Outcome → String
  | .rootsExhausted => "all roots are gone"
  | .quit => "quit"
  | .deadlineReached => "run duration reached"
  | .checksCompleted => "check limit reached"
  | .sourceClosed => "event source closed"

def summary (outcome : Outcome) (session : Session) : String :=
  let tracker := session.tracker
  let counts := tracker.counts
  let live := tracker.roots.liveCount
  let heading := emphasised green "Stopped:"
  s!"{heading} {reason outcome}\n" ++
    s!"  {counts.events} events, {counts.created} created, {counts.deleted} deleted, " ++
    s!"{counts.renamed} renamed, {counts.movedOut} moved out\n" ++
    s!"  {counts.overflows} overflows, {counts.rebuilds} rebuilds, " ++
    s!"{session.checksRun} periodic checks\n" ++
    s!"  {tracker.table.size} directories cached, " ++
    s!"{live} of {live + tracker.roots.retiredCount} roots live\n"

/-- Opens the log file at a path, and makes its directory if that is missing. Its name is taken as
text. -/
def openLog (tree : FileTree) (path : Path) : Except ProgramError FileTree :=
  match path.fileName?, path.parent? with
  | some name, some parent =>
    let directory := if parent.isEmpty then ⟨dot⟩ else parent
    let file := directory.child (Utf8.encode (Utf8.display name))
    match tree.openFile file with
    | .ok tree => .ok tree
    | .error _ =>
      match tree.makeDirectories directory with
      | .error error => .error (.logDirectory path error)
      | .ok tree =>
        match tree.openFile file with
        | .ok tree => .ok tree
        | .error error => .error (.logFile path error)
  | _, _ => .error (.logFileUnnamed path)

def openLog? (tree : FileTree) : Option Path → Except ProgramError FileTree
  | none => .ok tree
  | some path => openLog tree path

/-- The session of a command line, ready to begin, and what was said on the way there. -/
def prepare (tree : FileTree) (settings : Settings) (roots : List Path) :
    Except ProgramError Session × FileTree × List Log.Line :=
  match openLog? tree settings.logFile with
  | .error error => (.error error, tree, [])
  | .ok tree =>
    let lines := Roots.ofPathsLines tree roots
    match Roots.ofPaths tree roots with
    | .error error => (.error (.roots error), tree, lines)
    | .ok roots =>
      let reply := Tracker.start ⟨tree, 0⟩ (.ofRoots .empty roots settings.policy)
      match reply.result with
      | .error fault => (.error (.fault fault), tree, lines ++ reply.log)
      | .ok _ => (.ok (.ofTracker reply.state settings.sessionOptions), tree, lines ++ reply.log)

/-- How often a session is advanced before it is left alone. -/
def advanceLimit : Nat := 1000000

def failed (error : ProgramError) (log : List String) (elapsed : Nat) : Report :=
  let heading := emphasised red "error:"
  ⟨1, "", s!"{heading} {error.message}\n", log, elapsed⟩

/-- The exit code of a program that is lost. -/
def lostCode : Nat := 101

def work (tree : FileTree) (settings : Settings) (roots : List Path) (input : Bytes) (clock : Nat) :
    Report :=
  let (session?, tree, lines) := prepare tree settings roots
  let written (lines : List Log.Line) := Log.written settings.verbosity lines
  match session? with
  | .error error => failed error (written lines) 0
  | .ok session =>
    let intake := Control.take true input
    let (finish, schedule, more) :=
      (Schedule.begin session tree clock [] (intake.commands.map (0, ·))).run advanceLimit
    let log := written (lines ++ intake.log ++ more ++ Schedule.finishLines finish)
    match finish with
    | .stopped outcome => ⟨0, summary outcome schedule.session, "", log, schedule.now⟩
    | .failed fault => failed (.fault fault) log schedule.now
    | .pastClock => ⟨lostCode, "", Schedule.pastClockMessage ++ "\n", log, schedule.now⟩
    | .asleep | .unfinished => ⟨0, "", "", log, schedule.now⟩

def run (tree : FileTree) (invocation : Invocation) : Report :=
  match CommandLine.read invocation.arguments with
  | .error .help => ⟨0, CommandLine.helpText, "", [], 0⟩
  | .error .version => ⟨0, CommandLine.versionText, "", [], 0⟩
  | .error (.usage error) => ⟨2, "", error.message ++ "\n", [], 0⟩
  | .ok line =>
    match line.settings tree invocation.surroundings with
    | .error error => failed (.settings error) [] 0
    | .ok settings => work tree settings line.roots invocation.input invocation.clock

end Program

end TreeWatch
