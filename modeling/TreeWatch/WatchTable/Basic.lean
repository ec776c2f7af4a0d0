import TreeWatch.Path.Bounded

/-!
# Watch tables

A watch table says which directory each watch stands for. Entries live in numbered slots: an entry
keeps its slot as long as its watch lives, the lowest free slot is taken first, and slots are added
in steps of a fixed number, so that the room a table takes follows the most entries it ever held.
-/

namespace TreeWatch

/-- The number of a watch. Negative numbers stand for no watch. -/
structure WatchId where
  raw : Int
  deriving DecidableEq, Repr, Inhabited

namespace WatchId

/-- The number that events without a watch carry. -/
def unbound : WatchId := ⟨-1⟩

def isUnbound (id : WatchId) : Bool := id.raw < 0

def text (id : WatchId) : String := toString id.raw

end WatchId

/-- A watch and the path of the directory that it stands for. -/
structure Entry where
  id : WatchId
  path : Path
  deriving DecidableEq, Repr

inductive Distrust where
  /-- An event came on a watch that the table does not have. -/
  | unknownWatch (id : WatchId)
  /-- Entries name something that is not a directory. -/
  | notDirectories (entries : List Entry)
  /-- Events were lost. -/
  | overflow
  deriving DecidableEq, Repr

def Distrust.message : Distrust → String
  | .unknownWatch id => s!"watch {id.text} is not in the cache"
  | .notDirectories entries =>
    "cached paths are not directories: " ++
      ", ".intercalate (entries.map fun entry => s!"watch {entry.id.text} -> {entry.path.display}")
  | .overflow => "kernel event queue overflowed"

structure WatchTable where
  /-- Every slot there is, with nothing in those that are free. -/
  slots : List (Option Entry)
  /-- How many slots are added at a time. -/
  step : Nat
  /-- How often slots were added. -/
  growths : Nat
  step_pos : 0 < step
  deriving DecidableEq, Repr

namespace WatchTable

/-- The step of a table made without a wish for another. -/
def defaultStep : Nat := 200

/-- A table without slots; a step of nothing counts as one. -/
def ofStep (step : Nat) : WatchTable := ⟨[], max step 1, 0, Nat.le_max_right step 1⟩

def empty : WatchTable := ofStep defaultStep

def capacity (table : WatchTable) : Nat := table.slots.length

def get? (table : WatchTable) (slot : Nat) : Option Entry := (table.slots[slot]?).join

/-- The entries with their slots, in slot order. -/
def active (table : WatchTable) : List (Nat × Entry) :=
  table.slots.zipIdx.filterMap fun (entry, slot) => entry.map (slot, ·)

def size (table : WatchTable) : Nat := table.active.length

def isEmpty (table : WatchTable) : Bool := table.size == 0

/-- The first slot whose entry satisfies `p`. -/
def findSlot? (table : WatchTable) (p : Entry → Bool) : Option Nat :=
  table.slots.findIdx? fun entry => entry.any p

def slotOf? (table : WatchTable) (id : WatchId) : Option Nat :=
  if id.isUnbound then none else table.findSlot? (·.id == id)

/-- The slot of a watch that the table has to have. -/
def checkedSlot (table : WatchTable) (id : WatchId) : Except Distrust Nat :=
  match table.slotOf? id with
  | some slot => .ok slot
  | none => .error (.unknownWatch id)

def slotAt? (table : WatchTable) (path : Path) : Option Nat :=
  table.findSlot? (·.path.same path)

def holdsPath (table : WatchTable) (path : Path) : Bool := (table.slotAt? path).isSome

def idAt? (table : WatchTable) (path : Path) : Option WatchId := do
  let slot ← table.slotAt? path
  (table.get? slot).map (·.id)

def pathOf? (table : WatchTable) (id : WatchId) : Option Path := do
  let slot ← table.slotOf? id
  (table.get? slot).map (·.path)

/-- The most slots that there can be room for: a slot takes thirty-two bytes, and all slots together
fit in what a signed word of 64 bits can count. -/
def capacityLimit : Nat := (Nat.pow 2 63 - 1) / 32

def canGrow (table : WatchTable) : Bool := table.capacity + table.step ≤ capacityLimit

def freeSlot? (table : WatchTable) : Option Nat := table.slots.findIdx? Option.isNone

/-- The table with one step more of free slots; none if there is no room for them. -/
def grow? (table : WatchTable) : Option WatchTable :=
  if table.canGrow then
    some { table with
      slots := table.slots ++ List.replicate table.step none, growths := table.growths + 1 }
  else none

/-- The lowest free slot and the table that has it, which is grown if every slot is in use. -/
def makeRoom? (table : WatchTable) : Option (Nat × WatchTable) :=
  match table.freeSlot? with
  | some slot => some (slot, table)
  | none => table.grow?.map (table.capacity, ·)

/-- Puts an entry into the lowest free slot and says which that is; none if there is no room. -/
def insert? (table : WatchTable) (id : WatchId) (path : Path) : Option (Nat × WatchTable) :=
  table.makeRoom?.map fun (slot, table) =>
    (slot, { table with slots := table.slots.set slot (some ⟨id, path.bounded⟩) })

def erase (table : WatchTable) (slot : Nat) : WatchTable :=
  { table with slots := table.slots.set slot none }

/-- Frees every slot and keeps the room. -/
def clear (table : WatchTable) : WatchTable :=
  { table with slots := table.slots.map fun _ => none }

/-- Where a path goes when the directory at `source` becomes the one at `target`; none if it is not
at or below `source`. -/
def moved? (source target path : Path) : Option Path :=
  (path.below? source).map fun rest => if rest.isEmpty then target else target.join rest

/-- Moves every path at or below `source` to the same place below `target`. -/
def relocate (table : WatchTable) (source target : Path) : WatchTable :=
  { table with
    slots := table.slots.map fun entry => entry.map fun entry =>
      match moved? source target entry.path with
      | some path => { entry with path := path.bounded }
      | none => entry }

def slotsBelow (table : WatchTable) (path : Path) : List Nat :=
  (table.active.filter fun (_, entry) => entry.path.isBelow path).map (·.1)

/-- Inserts a path in component order. -/
def insertOrdered (path : Path) : List Path → List Path
  | [] => [path]
  | head :: rest =>
    if path.precedes head then path :: head :: rest else head :: insertOrdered path rest

/-- Counts a path among those counted so far, where the first spelling of a path stands for them
all. -/
def countPath : List (Path × Nat) → Path → List (Path × Nat)
  | [], path => [(path, 1)]
  | (first, count) :: rest, path =>
    if first.same path then (first, count + 1) :: rest else (first, count) :: countPath rest path

/-- How often each path is among paths. -/
def pathCounts (paths : List Path) : List (Path × Nat) := paths.foldl countPath []

/-- The paths counted more than once, in component order. -/
def repeated (counts : List (Path × Nat)) : List Path :=
  ((counts.filter (1 < ·.2)).map (·.1)).foldr insertOrdered []

/-- The paths that more than one entry has, in component order, each as the first of them spells
it. -/
def sharedPaths (table : WatchTable) : List Path :=
  repeated (pathCounts (table.active.map (·.2.path)))

end WatchTable

end TreeWatch
