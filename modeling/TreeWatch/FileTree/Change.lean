import TreeWatch.FileTree.Resolve

/-!
# Changes of a file tree

Making directories, files and links, moving and removing. A change that is refused leaves the tree
as it is; `none` says so where the reason does not matter.
-/

namespace TreeWatch

namespace FileTree

/-- The mode of a file made without a wish for another. -/
def plainMode : Nat := 0o644

def withoutSlashes (path : Path) : Path := ⟨dropWhileEnd (· == slash) path.bytes⟩

def makeDirectory (tree : FileTree) (path : Path) : Except IoError FileTree :=
  match tree.reach false (withoutSlashes path) with
  | .ok (.free directory name) => .ok (tree.putDirectory (directory ++ [name]))
  | .ok (.object _ _) => .error .entryExists
  | .error error =>
    if (withoutSlashes path).isEmpty && !path.isEmpty then .error .entryExists else .error error

/-- The path and the paths above it, innermost first. -/
def ancestry (path : Path) : List Path :=
  let bytes := (withoutSlashes path).bytes
  let cuts := (List.range bytes.length).filter fun i => 0 < i && bytes[i]? == some slash
  path :: (cuts.map fun i => ⟨bytes.take i⟩).reverse

/-- A directory that is there already is as good as one that was made. -/
def orExisting (tree : FileTree) (path : Path) : Except IoError FileTree → Except IoError FileTree
  | .ok made => .ok made
  | .error error =>
    match tree.inspectTarget path with
    | .ok (.directory _) => .ok tree
    | _ => .error error

/-- Makes the first of the given directories, and the one after it first if that is missing. -/
def makeOutward (tree : FileTree) : List Path → Except IoError FileTree
  | [] => .ok tree
  | path :: above =>
    match tree.makeDirectory path with
    | .error .noEntry => do
      let tree ← makeOutward tree above
      orExisting tree path (tree.makeDirectory path)
    | made => orExisting tree path made

/-- Makes a directory and those above it that are missing. A path to a directory is fine as it
is. -/
def makeDirectories (tree : FileTree) (path : Path) : Except IoError FileTree :=
  makeOutward tree (ancestry path)

/-- Writes a file, links followed. An old file keeps its mode and a new one gets `mode`. A slash at
the end asks for a directory, so no file is written there. -/
def writeFile (tree : FileTree) (path : Path) (content : Bytes) (mode : Nat) :
    Except IoError FileTree :=
  if path.bytes.getLast? = some slash then
    match tree.reach false (withoutSlashes path) with
    | .ok _ => .error .isDirectory
    | .error error => if (withoutSlashes path).isEmpty then .error .isDirectory else .error error
  else
    match tree.reach true path with
    | .error error => .error error
    | .ok (.object location (.file _ old)) => .ok (tree.put location (.file content old))
    | .ok (.object _ _) => .error .isDirectory
    | .ok (.free directory name) => .ok (tree.put (directory ++ [name]) (.file content mode))

/-- Makes a file if there is none and leaves an old one as it is, links followed. -/
def openFile (tree : FileTree) (path : Path) : Except IoError FileTree :=
  match tree.reach true path with
  | .ok (.object _ (.file _ _)) => .ok tree
  | _ => tree.writeFile path [] plainMode

inductive Change where
  | directory (path : Path)
  | file (path : Path) (content : Bytes)
  | link (path : Path) (target : Path)
  | move (source target : Path)
  | remove (path : Path)
  deriving Repr

def changed? (tree : FileTree) : Change → Option FileTree
  | .directory path => (tree.makeDirectories path).toOption
  | .file path content => (tree.writeFile path content plainMode).toOption
  | .link path target =>
    match tree.reach false path with
    | .ok (.free directory name) => some (tree.put (directory ++ [name]) (.link target))
    | _ => none
  | .move source target =>
    match tree.find false source, tree.reach false (withoutSlashes target) with
    | .ok (location, object), .ok (.free directory name) =>
      if location = [] ∨ object.isDirectory ∧ location.isPrefixOf directory then none
      else some (tree.relocate location (directory ++ [name]))
    | _, _ => none
  | .remove path =>
    match tree.find false path with
    | .ok (location, _) => if location = [] then none else some (tree.erase location)
    | .error _ => none

/-- Applies changes one after the other, skipping those that are refused; says which were made. -/
def applyAll (tree : FileTree) : List Change → FileTree × List Bool
  | [] => (tree, [])
  | change :: rest =>
    match tree.changed? change with
    | some next => let (last, made) := next.applyAll rest; (last, true :: made)
    | none => let (last, made) := tree.applyAll rest; (last, false :: made)

end FileTree

end TreeWatch
