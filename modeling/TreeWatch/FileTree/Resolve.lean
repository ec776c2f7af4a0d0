import TreeWatch.FileTree.Basic
import TreeWatch.FileTree.IoError

/-!
# From paths to objects

A path is followed from the root, which is also where relative paths start. Links on the way are
replaced by their targets, at most `linkLimit` of them; whether a link at the end is followed too
depends on the question. `..` leads to the holder of the directory reached, and the root holds
itself.
-/

namespace TreeWatch

namespace FileTree

/-- How many links one path may lead through. -/
def linkLimit : Nat := 40

/-- The longest name of an entry, in bytes. -/
def nameMax : Nat := 255

/-- The first length of a path, in bytes, that is refused. -/
def pathLimit : Nat := 4096

/-- What a path leads to: an object, or a free name in a directory. -/
inductive Reached where
  | object (location : Location) (object : Object)
  | free (directory : Location) (name : Bytes)
  deriving Repr

/-- The steps of a path. A slash at the end asks for a directory, just as a last `.` does. -/
def stepsOf (path : Path) : List Bytes :=
  path.segments.filter (· ≠ []) ++ if path.bytes.getLast? = some slash then [dot] else []

/-- Where following steps without crossing a link ends. -/
inductive Stop where
  | reached (what : Reached)
  | refused (error : IoError)
  /-- A link in the directory at `location`, with the steps that were left after it. -/
  | crossing (location : Location) (target : Path) (rest : List Bytes)

/-- Follows `steps` from the directory at `here` as far as the first link that has to be crossed. -/
def advance (tree : FileTree) (followLast : Bool) : Location → List Bytes → Stop
  | here, [] =>
    match tree.get? here with
    | some object => .reached (.object here object)
    | none => .refused .noEntry
  | here, step :: rest =>
    if step = dot then advance tree followLast here rest
    else if step = dotDot then advance tree followLast here.dropLast rest
    else if nameMax < step.length then .refused .nameTooLong
    else
      match tree.get? (here ++ [step]) with
      | none => if rest = [] then .reached (.free here step) else .refused .noEntry
      | some (.directory _) => advance tree followLast (here ++ [step]) rest
      | some (.file content mode) =>
        if rest = [] then .reached (.object (here ++ [step]) (.file content mode))
        else .refused .notDirectory
      | some (.link target) =>
        if rest = [] ∧ followLast = false then .reached (.object (here ++ [step]) (.link target))
        else .crossing here target rest

/-- Follows steps through at most `links` links. -/
def follow (tree : FileTree) (followLast : Bool) (links : Nat) (here : Location)
    (steps : List Bytes) : Except IoError Reached :=
  match tree.advance followLast here steps with
  | .reached what => .ok what
  | .refused error => .error error
  | .crossing directory target rest =>
    match links with
    | 0 => .error .linkLoop
    | links + 1 =>
      if target.isEmpty then .error .noEntry
      else
        follow tree followLast links (if target.isAbsolute then [] else directory)
          (stepsOf target ++ rest)

def reach (tree : FileTree) (followLast : Bool) (path : Path) : Except IoError Reached :=
  if path.bytes.contains 0 then .error .nulByte
  else if path.isEmpty then .error .noEntry
  else if pathLimit ≤ path.bytes.length then .error .nameTooLong
  else tree.follow followLast linkLimit [] (stepsOf path)

def find (tree : FileTree) (followLast : Bool) (path : Path) :
    Except IoError (Location × Object) :=
  match tree.reach followLast path with
  | .ok (.object location object) => .ok (location, object)
  | .ok (.free _ _) => .error .noEntry
  | .error error => .error error

/-- The object at the end of a path, a link at the end taken as itself. -/
def inspect (tree : FileTree) (path : Path) : Except IoError Object :=
  (tree.find false path).map (·.2)

/-- The object at the end of a path, links followed. -/
def inspectTarget (tree : FileTree) (path : Path) : Except IoError Object :=
  (tree.find true path).map (·.2)

/-- Whether a path names a directory and not a link to one. -/
def isDirectory (tree : FileTree) (path : Path) : Bool :=
  match tree.inspect path with
  | .ok object => object.isDirectory
  | .error _ => false

/-- The path of a place: absolute, without dots and links. -/
def pathOf (location : Location) : Path := ⟨slash :: joinWith slash location⟩

/-- The path, free of dots and links, of what a path leads to, if it is not too long to be looked
up. -/
def canonical (tree : FileTree) (path : Path) : Except IoError Path :=
  match tree.find true path with
  | .ok (location, _) =>
    if pathLimit ≤ (pathOf location).bytes.length then .error .nameTooLong
    else .ok (pathOf location)
  | .error error => .error error

/-- Whether a path leads to anything, links followed. -/
def holds (tree : FileTree) (path : Path) : Bool := (tree.find true path).toOption.isSome

def readText (tree : FileTree) (path : Path) : Except IoError (List Char) :=
  match tree.inspectTarget path with
  | .error error => .error error
  | .ok (.file content _) =>
    match Utf8.decode? content with
    | some text => .ok text
    | none => .error .notText
  | .ok _ => .error .isDirectory

end FileTree

end TreeWatch
