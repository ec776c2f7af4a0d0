import TreeWatch.FileTree.Resolve

/-!
# Walks

A walk lists an object and everything below it, a directory before what it holds and what it holds
in ascending order of names. Links are listed and not entered, except that a walk that starts at a
link to a directory goes through it; the start still counts as a link.
-/

namespace TreeWatch

namespace FileTree

/-- What a walk comes to: an object under its path, or a path where it cannot go on. -/
inductive WalkItem where
  | entry (path : Path) (isDirectory : Bool)
  | failed (path : Path) (error : IoError)
  deriving DecidableEq, Repr

/-- The path of an object below the start of a walk. -/
def walkPath (start : Path) (names : Location) : Path := names.foldl Path.child start

/-- A directory whose path is too long to be listed is met, and the attempt to list it fails. -/
def directoryItems (path : Path) : List WalkItem :=
  if pathLimit ≤ path.bytes.length then [.entry path true, .failed path .nameTooLong]
  else [.entry path true]

/-- What a walk from `start` meets below the directory at `location`, which it started from. An
object is met if the directory that holds it can be listed. -/
def walkBelow (tree : FileTree) (start : Path) (location : Location) : List WalkItem :=
  (tree.below location).flatMap fun entry =>
    if pathLimit ≤ (walkPath start entry.1.dropLast).bytes.length then []
    else if entry.2.isDirectory then directoryItems (walkPath start entry.1)
    else [.entry (walkPath start entry.1) false]

def walk (tree : FileTree) (start : Path) : List WalkItem :=
  match tree.find false start with
  | .error error => [.failed start error]
  | .ok (_, .file _ _) => [.entry start false]
  | .ok (location, .directory _) => .entry start true :: tree.walkBelow start location
  | .ok (_, .link _) =>
    match tree.find true start with
    | .error error => [.failed start error]
    | .ok (location, .directory _) => .entry start false :: tree.walkBelow start location
    | .ok _ => [.entry start false]

def WalkItem.directory? : WalkItem → Option Path
  | .entry path true => some path
  | _ => none

def failureText (path : Path) (error : IoError) : String :=
  "IO error for operation on " ++ path.display ++ ": " ++ error.message

end FileTree

end TreeWatch
