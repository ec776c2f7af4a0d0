import TreeWatch.FileTree.Resolve
import TreeWatch.Log.Line

/-!
# Roots

The directories that were named for monitoring. Each is taken under its path without dots and links,
and no directory may be named twice. A root is retired when it is deleted or moved away, and it
stays retired; when the last one is, there is nothing left to monitor.
-/

namespace TreeWatch

structure Root where
  path : Path
  /-- The directory that the root was when it was named. -/
  directory : DirectoryId
  deriving DecidableEq, Repr

inductive RootError where
  | empty
  | notFound (path : Path)
  | notADirectory (path : Path)
  | duplicate (first second : Path)
  | cannotInspect (path : Path) (error : IoError)
  deriving DecidableEq, Repr

def RootError.message : RootError → String
  | .empty => "no root directories given"
  | .notFound path => s!"root {path.display} does not exist"
  | .notADirectory path => s!"root {path.display} is not a directory"
  | .duplicate first second =>
    s!"roots {first.display} and {second.display} refer to the same directory"
  | .cannotInspect path error => s!"failed to inspect root {path.display}: {error.message}"

structure Roots where
  /-- One place for each path that was named, free once the root is retired. -/
  places : List (Option Root)
  /-- How many roots were retired. -/
  retired : Nat
  deriving DecidableEq, Repr

/-- What became of the wish to retire a root. -/
inductive Retirement where
  | notARoot
  | remaining (count : Nat)
  | exhausted
  deriving DecidableEq, Repr

namespace Roots

def identify (tree : FileTree) (path : Path) : Except RootError Root :=
  match tree.inspectTarget path with
  | .error .noEntry => .error (.notFound path)
  | .error error => .error (.cannotInspect path error)
  | .ok (.directory directory) =>
    match tree.canonical path with
    | .ok canonical => .ok ⟨canonical, directory⟩
    | .error error => .error (.cannotInspect path error)
  | .ok _ => .error (.notADirectory path)

/-- Takes paths in order after the roots already known, up to the first that is at fault. -/
def enroll (tree : FileTree) (known : List Root) : List Path → List Root × Option RootError
  | [] => (known, none)
  | path :: rest =>
    match identify tree path with
    | .error error => (known, some error)
    | .ok root =>
      match known.find? (·.directory == root.directory) with
      | some first => (known, some (.duplicate first.path path))
      | none => enroll tree (known ++ [root]) rest

def ofPaths (tree : FileTree) (paths : List Path) : Except RootError Roots :=
  if paths.isEmpty then .error .empty
  else
    match enroll tree [] paths with
    | (known, none) => .ok ⟨known.map some, 0⟩
    | (_, some error) => .error error

/-- What is said while paths are taken: a line for each root, up to a fault. -/
def ofPathsLines (tree : FileTree) (paths : List Path) : List Log.Line :=
  (enroll tree [] paths).1.map fun root =>
    .debug .roots s!"root {root.path.display} (dev D, ino I)"

def live (roots : Roots) : List Root := roots.places.filterMap id

def liveCount (roots : Roots) : Nat := roots.live.length

def retiredCount (roots : Roots) : Nat := roots.retired

/-- The place of the live root at a path. -/
def locate? (roots : Roots) (path : Path) : Option Nat :=
  roots.places.findIdx? fun place => place.any (·.path.same path)

def isRoot (roots : Roots) (path : Path) : Bool := (roots.locate? path).isSome

/-- The directory that the live root at a path was when it was named. -/
def directoryOf? (roots : Roots) (path : Path) : Option DirectoryId := do
  let index ← roots.locate? path
  let root ← (roots.places[index]?).join
  pure root.directory

/-- Retires the live root at a path, if there is one. -/
def retire (roots : Roots) (path : Path) : Retirement × Roots :=
  match roots.locate? path with
  | none => (.notARoot, roots)
  | some index =>
    let roots : Roots := ⟨roots.places.set index none, roots.retired + 1⟩
    (if roots.liveCount = 0 then .exhausted else .remaining roots.liveCount, roots)

def retireLines (roots : Roots) (path : Path) : List Log.Line :=
  match roots.retire path with
  | (.notARoot, _) => []
  | (_, rest) =>
    [.info s!"root {path.display} is no longer monitored ({rest.liveCount} remaining)"]

end Roots

end TreeWatch
