import TreeWatch.Path.Basic

/-!
# File trees

A file tree holds directories, regular files and symbolic links, each at its place: the names that
lead to it from the root. Objects are kept in the lexicographic order of their places, so that a
directory stands before what it holds and what it holds stands together, in ascending order of
names.

Each directory carries an identity, which it keeps when it is moved and which no later directory
gets.
-/

namespace TreeWatch

/-- The names that lead from the root to an object. -/
abbrev Location := List Bytes

abbrev DirectoryId := Nat

inductive Object where
  | directory (id : DirectoryId)
  | file (content : Bytes) (mode : Nat)
  | link (target : Path)
  deriving DecidableEq, Repr

def Object.isDirectory : Object → Bool
  | .directory _ => true
  | _ => false

structure FileTree where
  /-- The objects below the root, in the order of their places. -/
  objects : List (Location × Object)
  /-- No directory has this identity yet, nor any above it. -/
  nextId : DirectoryId
  deriving Repr

namespace FileTree

/-- The identity of the root, which is always there. -/
def rootId : DirectoryId := 0

def empty : FileTree := ⟨[], rootId + 1⟩

def get? (tree : FileTree) : Location → Option Object
  | [] => some (.directory rootId)
  | location => tree.objects.lookup location

/-- Puts an object at a place, in front of everything that comes later. -/
def insertSorted (location : Location) (object : Object) :
    List (Location × Object) → List (Location × Object)
  | [] => [(location, object)]
  | head :: rest =>
    if head.1 = location then (location, object) :: rest
    else if location < head.1 then (location, object) :: head :: rest
    else head :: insertSorted location object rest

def put (tree : FileTree) (location : Location) (object : Object) : FileTree :=
  { tree with objects := insertSorted location object tree.objects }

def putDirectory (tree : FileTree) (location : Location) : FileTree :=
  { tree.put location (.directory tree.nextId) with nextId := tree.nextId + 1 }

/-- Without the object at a place and all that it holds. -/
def erase (tree : FileTree) (location : Location) : FileTree :=
  { tree with objects := tree.objects.filter fun entry => !location.isPrefixOf entry.1 }

/-- The objects strictly below a place, each with the names that lead to it from there. -/
def below (tree : FileTree) (location : Location) : List (Location × Object) :=
  tree.objects.filterMap fun entry =>
    if location.isPrefixOf entry.1 && location.length < entry.1.length then
      some (entry.1.drop location.length, entry.2)
    else none

/-- Takes the object at `source`, with all that it holds, to the place `target`. -/
def relocate (tree : FileTree) (source target : Location) : FileTree :=
  let moved := tree.objects.filter fun entry => source.isPrefixOf entry.1
  moved.foldl (fun tree entry => tree.put (target ++ entry.1.drop source.length) entry.2)
    (tree.erase source)

end FileTree

end TreeWatch
