import TreeWatch.FileTree.Resolve
import TreeWatch.Tracker.Basic
import TreeWatch.Log.Line

/-!
# Audits

An audit compares every entry of a watch table with the file tree. A path that leads nowhere is
counted and means little: the tree changes while the table is read. A path that leads to something
other than a directory cannot come about that way, and the table is not to be trusted any more.
-/

namespace TreeWatch

namespace Audit

/-- What the path of an entry leads to, a link at its end not followed. -/
inductive Finding where
  | directory
  | otherObject
  | nothing (error : IoError)
  deriving DecidableEq, Repr

def find (tree : FileTree) (path : Path) : Finding :=
  match tree.inspect path with
  | .ok object => if object.isDirectory then .directory else .otherObject
  | .error error => .nothing error

structure Report where
  /-- How many entries were looked at. -/
  checked : Nat
  /-- How many paths lead nowhere. -/
  missing : Nat
  /-- The entries whose path leads to something other than a directory. -/
  notDirectories : List Entry
  /-- The paths that more than one entry has. -/
  shared : List Path
  deriving DecidableEq, Repr

namespace Report

def failures (report : Report) : Nat := report.missing + report.notDirectories.length

/-- Why the table is not to be trusted, if it is not. -/
def distrust? (report : Report) : Option Distrust :=
  if report.notDirectories.isEmpty then none else some (.notDirectories report.notDirectories)

end Report

def Finding.isNothing : Finding → Bool
  | .nothing _ => true
  | _ => false

def run (tree : FileTree) (table : WatchTable) : Report :=
  let entries := table.active.map (·.2)
  { checked := entries.length
    missing := (entries.filter fun entry => (find tree entry.path).isNothing).length
    notDirectories := entries.filter fun entry => find tree entry.path = .otherObject
    shared := table.sharedPaths }

def entryLine (tree : FileTree) (slot : Nat) (entry : Entry) : Log.Line :=
  let place := s!"slot {slot} watch {entry.id.text}"
  let path := entry.path.display
  match find tree entry.path with
  | .directory => .debug .check s!"{place}: {path} ok"
  | .otherObject => .error s!"{place}: {path} is not a directory"
  | .nothing .noEntry => .warn s!"{place}: {path} does not exist"
  | .nothing error => .warn s!"{place}: cannot stat {path}: {error.message}"

/-- What is said during an audit: a line for each entry and for each shared path, and the sums. -/
def lines (tree : FileTree) (table : WatchTable) : List Log.Line :=
  let report := run tree table
  table.active.map (fun (slot, entry) => entryLine tree slot entry) ++
  report.shared.map (fun path => .warn s!"{path.display} is cached more than once") ++
  [.info <| s!"consistency check: {report.checked} entries, {report.missing} missing, " ++
    s!"{report.notDirectories.length} not directories, {report.shared.length} duplicate paths"]

end Audit

end TreeWatch
