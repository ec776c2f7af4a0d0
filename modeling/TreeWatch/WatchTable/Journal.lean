import TreeWatch.Log.Line
import TreeWatch.WatchTable.Basic

/-!
# What a watch table has to say

The log lines of each change of a watch table, read off the table before the change.
-/

namespace TreeWatch

namespace WatchTable

open Log (Line)

def cutLines (path : Path) : List Line :=
  if path.isLong then
    [.warn s!"path of {path.bytes.length} bytes truncated to {pathMax} bytes: {path.display}"]
  else []

def growLines (table : WatchTable) : List Line :=
  match table.freeSlot?, table.grow? with
  | none, some grown => [.debug .cache s!"cache grown to {grown.capacity} slots"]
  | _, _ => []

def insertLines (table : WatchTable) (id : WatchId) (path : Path) : List Line :=
  match table.makeRoom? with
  | none => []
  | some (slot, _) =>
    table.growLines ++ cutLines path ++
    [.debug .cache s!"cache add: slot {slot} watch {id.text} -> {path.bounded.display}"]

def eraseLines (table : WatchTable) (slot : Nat) : List Line :=
  match table.get? slot with
  | some entry =>
    [.debug .cache s!"cache remove: slot {slot} watch {entry.id.text} ({entry.path.display})"]
  | none => []

def relocateLines (table : WatchTable) (source target : Path) : List Line :=
  table.active.flatMap fun (slot, entry) =>
    match moved? source target entry.path with
    | some path =>
      .debug .cache
        (s!"cache rename: slot {slot} watch {entry.id.text} {entry.path.display} -> " ++
          path.display) ::
      cutLines path
    | none => []

end WatchTable

end TreeWatch
