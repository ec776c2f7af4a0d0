import TreeWatch.Audit
import TreeWatch.FileTree.Walk
import TreeWatch.Tracker.Action
import TreeWatch.WatchTable.Journal

/-!
# Covering directory trees

Watching whole subtrees, giving them up, and starting over. A directory that is gone when its watch
is asked for is no cause for alarm: the tree does not stand still while it is walked.
-/

namespace TreeWatch

namespace Tracker

open TreeWatch.Action

/-- What watching a directory came to. -/
inductive Watched where
  /-- It has an entry now. -/
  | added (id : WatchId)
  /-- Its watch had an entry before, perhaps under another path. -/
  | known (id : WatchId)
  deriving DecidableEq, Repr

def retireRoot (path : Path) : Action Tracker Unit := do
  let tracker ← state
  match tracker.roots.retire path with
  | (.notARoot, _) => pure ()
  | (retirement, roots) =>
    say (tracker.roots.retireLines path)
    change fun tracker => { tracker with
      roots
      counts := { tracker.counts with rootsRetired := tracker.counts.rootsRetired + 1 } }
    if retirement = .exhausted then say [.info "all roots have been retired"]

def addEntry (id : WatchId) (path : Path) : Action Tracker Unit := do
  let tracker ← state
  match tracker.table.insert? id path with
  | some (_, table) =>
    say (tracker.table.insertLines id path)
    change fun tracker => { tracker with table }
  | none => fail (.noRoom tracker.table.capacity)

def removeEntry (slot : Nat) : Action Tracker (Option Path) := do
  let tracker ← state
  match tracker.table.get? slot with
  | none => pure none
  | some entry =>
    say (tracker.table.eraseLines slot)
    change fun tracker => { tracker with table := tracker.table.erase slot }
    pure (some entry.path)

/-- Moves the entries at or below `source` to the same places below `target`. -/
def moveEntries (source target : Path) : Action Tracker Nat := do
  let tracker ← state
  say (tracker.table.relocateLines source target)
  change fun tracker => { tracker with table := tracker.table.relocate source target }
  pure (tracker.table.slotsBelow source).length

/-- Asks the source for a watch and leaves the table alone; none if there is no directory at the
path any more. A refusal although there is one is a fault. -/
def requestWatch (path : Path) : Action Tracker (Option WatchId) := do
  let tree ← tree
  let tracker ← state
  match tracker.source.add tree path with
  | .ok (id, source) =>
    change fun tracker => { tracker with source }
    pure (some id)
  | .error error =>
    if tree.isDirectory path then fail (.source error)
    else
      say [.debug .rescan s!"{path.display} is gone before it could be watched"]
      pure none

/-- Watches one directory and enters it into the table; none if it is gone. A directory that was met
before under another path takes its entries along to the new one. -/
def watchDirectory (path : Path) : Action Tracker (Option Watched) := do
  let some id ← requestWatch path | pure none
  let tracker ← state
  match tracker.table.slotOf? id with
  | none =>
    addEntry id path
    pure (some (.added id))
  | some slot =>
    match (tracker.table.get? slot).map (·.path) with
    | some previous =>
      if previous.same path then pure (some (.known id))
      else
        say [.debug .cache
          s!"watch {id.text} moved from {previous.display} to {path.display}"]
        let _ ← moveEntries previous path
        retireRoot previous
        pure (some (.known id))
    | none => pure (some (.known id))

/-- Watches the directories among the items of a walk, and counts those that got an entry. -/
def watchItems (start : Path) : List FileTree.WalkItem → Action Tracker Nat
  | [] => pure 0
  | .failed path error :: rest => do
    say [.debug .rescan s!"walk under {start.display}: {FileTree.failureText path error}"]
    watchItems start rest
  | .entry _ false :: rest => watchItems start rest
  | .entry path true :: rest => do
    match ← watchDirectory path with
    | some (.added _) => do
      let more ← watchItems start rest
      pure (more + 1)
    | _ => watchItems start rest

/-- Watches the directory at a path and every directory below it; says how many got an entry. -/
def coverSubtree (path : Path) : Action Tracker Nat := do
  let tree ← tree
  let watched ← watchItems path (tree.walk path)
  say [.debug .rescan s!"walked {path.display}: {watched} directories watched"]
  pure watched

/-- Watches the subtree of one root, or retires the root if it is no directory any more. -/
def coverRoot (path : Path) : Action Tracker Nat := do
  let tree ← tree
  if tree.isDirectory path then
    say [.debug .roots s!"watching root {path.display}"]
    let watched ← coverSubtree path
    let tracker ← state
    if !tracker.table.holdsPath path then retireRoot path
    pure watched
  else
    say [.warn s!"root {path.display} is no longer a directory"]
    retireRoot path
    pure 0

def coverRoots : List Path → Action Tracker Nat
  | [] => pure 0
  | path :: rest => do
    let watched ← coverRoot path
    let more ← coverRoots rest
    pure (watched + more)

def cover : Action Tracker Nat := do
  let tracker ← state
  coverRoots (tracker.roots.live.map (·.path))

def start : Action Tracker Flow := do
  let watched ← cover
  let tracker ← state
  say [.info s!"watching {watched} directories under {tracker.roots.liveCount} roots"]
  pure tracker.flow

/-- Forgets everything but the roots and the counts, with a source that has started over. -/
def cleared (source : Source) (tracker : Tracker) : Tracker :=
  { tracker with
    source
    table := tracker.table.clear
    departures := .empty
    draining := []
    counts := { tracker.counts with rebuilds := tracker.counts.rebuilds + 1 } }

/-- Throws the table away and watches every live root again; says how many directories got an
entry. -/
def rebuild : Action Tracker Nat := do
  let tracker ← state
  say [.info s!"rebuilding watch cache ({tracker.table.size} entries)"]
  match tracker.source.reset with
  | .error error => fail (.source error)
  | .ok source =>
    change (cleared source)
    let watched ← cover
    say [.info s!"rebuilt watch cache: {watched} directories"]
    pure watched

/-- Deals with a table that is not to be trusted: a fault or a rebuild, as the policy says. -/
def resolveDistrust (why : Distrust) : Action Tracker Unit := do
  let tracker ← state
  if tracker.policy.abortsOnProblem then fail (.diverged why)
  else
    say [.warn s!"{why.message}; rebuilding the cache"]
    let _ ← rebuild

/-- Audits the table, and deals with what comes out. -/
def check : Action Tracker Audit.Report := do
  let tree ← tree
  let tracker ← state
  say (Audit.lines tree tracker.table)
  let report := Audit.run tree tracker.table
  match report.distrust? with
  | some why => resolveDistrust why
  | none => pure ()
  pure report

def drain (id : WatchId) : Action Tracker Unit :=
  change fun tracker =>
    if tracker.isDraining id then tracker else { tracker with draining := tracker.draining ++ [id] }

/-- Gives up the watch in a slot, unless it is on its way out already, and frees the slot. -/
def giveUpEntry (slot : Nat) : Action Tracker Unit := do
  let tracker ← state
  match tracker.table.get? slot with
  | none => pure ()
  | some entry =>
    if !tracker.isDraining entry.id then
      match tracker.source.remove entry.id with
      | .ok source => change fun tracker => { tracker with source }
      | .error error =>
        say [.debug .cache s!"remove watch {entry.id.text}: {error.fullMessage}"]
      drain entry.id
    let _ ← removeEntry slot
    retireRoot entry.path

def giveUpEntries : List Nat → Action Tracker Unit
  | [] => pure ()
  | slot :: rest => do
    giveUpEntry slot
    giveUpEntries rest

/-- Gives up the directory at a path and all below it; says how many entries that were. -/
def giveUpSubtree (path : Path) : Action Tracker Nat := do
  let tracker ← state
  let slots := tracker.table.slotsBelow path
  giveUpEntries slots
  pure slots.length

end Tracker

end TreeWatch
