import TreeWatch.FileTree.Change
import TreeWatch.WatchTable.Listing
import TreeWatch.Log.Line

/-!
# Alarms

When the watch table cannot be trusted any more, others are told to stop by a file, and the table is
written to the log as evidence before the work ends.
-/

namespace TreeWatch

namespace Alarm

/-- Only the owner may read a stop file. -/
def stopFileMode : Nat := 0o600

/-- The listing of a table as log lines: errors if it is the last that is heard of it. -/
def listingLines (isFinal : Bool) (table : WatchTable) : List Log.Line :=
  table.listingLines.map fun line => if isFinal then .error line else .info line

/-- Makes the stop file, empty, or empties it. -/
def makeStopFile (tree : FileTree) (path : Path) : Except IoError FileTree :=
  tree.writeFile path [] stopFileMode

/-- Raises the alarm: the tree with the stop file, and what is said. -/
def raise (tree : FileTree) (stopFile : Option Path) (table : WatchTable) (reason : String) :
    FileTree × List Log.Line :=
  let cry := [.error s!"watch cache can no longer be trusted: {reason}"]
  match stopFile with
  | none => (tree, cry ++ listingLines true table)
  | some path =>
    match makeStopFile tree path with
    | .ok tree =>
      (tree, cry ++ .error s!"created stop file {path.display}" :: listingLines true table)
    | .error error =>
      (tree, cry ++ .error s!"failed to create stop file {path.display}: {error.message}" ::
        listingLines true table)

end Alarm

end TreeWatch
