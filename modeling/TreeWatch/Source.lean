import TreeWatch.Event
import TreeWatch.FileTree.Resolve

/-!
# Event sources

An event source keeps one watch for each watched directory, whatever path it was asked under, and
hands out events in the order in which they were queued. Numbers of watches ascend and are never
used again. A watch ends when it is removed, when the event that announces its end is handed out, or
with all others when the source starts over.

A source can be told to refuse watches on certain paths, and to refuse to start over.
-/

namespace TreeWatch

/-- Why an event source did not do what it was asked. -/
inductive SourceError where
  | cannotInspect (path : Path) (error : IoError)
  | notADirectory (path : Path)
  | watchRefused
  | unknownWatch (id : WatchId)
  | resetRefused
  | eventsFailed
  deriving DecidableEq, Repr

namespace SourceError

/-- What was attempted, or the whole story where there is no more to it. -/
def message : SourceError → String
  | .cannotInspect path _ => s!"Failed to add watch for {path.display}"
  | .notADirectory path => s!"Failed to add watch for {path.display}: not a directory"
  | .watchRefused => "watch refused"
  | .unknownWatch id => s!"Unknown watch {id.text}"
  | .resetRefused => "reset refused"
  | .eventsFailed => "event source failed"

/-- What was attempted, followed by the cause if there is one. -/
def fullMessage : SourceError → String
  | .cannotInspect path error => s!"Failed to add watch for {path.display}: {error.message}"
  | error => error.message

end SourceError

structure Source where
  /-- The watches that have not ended, each with its directory. -/
  live : List (WatchId × DirectoryId)
  /-- The events that wait, first in front. -/
  queue : List Event
  /-- The number of the next watch. -/
  nextId : Nat
  /-- Whether there will be no more events than those that wait. -/
  closed : Bool
  /-- Whether the next look for an event fails. -/
  failing : Bool
  /-- The paths on which watches are refused, as they are spelt. -/
  refused : List Path
  /-- Whether starting over is refused. -/
  refusesReset : Bool
  received : Nat
  overflows : Nat
  added : Nat
  removed : Nat
  resets : Nat
  deriving Repr

namespace Source

def empty : Source := ⟨[], [], 1, false, false, [], false, 0, 0, 0, 0, 0⟩

def isLive (source : Source) (id : WatchId) : Bool := source.live.any (·.1 == id)

def watchOf? (source : Source) (directory : DirectoryId) : Option WatchId :=
  (source.live.find? (·.2 == directory)).map (·.1)

def forget (source : Source) (id : WatchId) : Source :=
  { source with live := source.live.filter (·.1 != id) }

def push (source : Source) (event : Event) : Source :=
  { source with queue := source.queue ++ [event] }

/-- Watches the directory at a path, links at its end not followed. A directory that is watched
keeps its watch. -/
def add (source : Source) (tree : FileTree) (path : Path) :
    Except SourceError (WatchId × Source) :=
  if source.refused.contains path then .error .watchRefused
  else
    match tree.inspect path with
    | .error error => .error (.cannotInspect path error)
    | .ok (.directory directory) =>
      match source.watchOf? directory with
      | some id => .ok (id, source)
      | none =>
        let id : WatchId := ⟨source.nextId⟩
        .ok (id, { source with
          live := source.live ++ [(id, directory)]
          nextId := source.nextId + 1
          added := source.added + 1 })
    | .ok _ => .error (.notADirectory path)

/-- Ends a watch; the event that announces its end is queued. -/
def remove (source : Source) (id : WatchId) : Except SourceError Source :=
  if source.isLive id then
    let source := source.forget id
    .ok { source.push (.onWatch id .ignored) with removed := source.removed + 1 }
  else .error (.unknownWatch id)

def next? (source : Source) : Option (Event × Source) :=
  match source.queue with
  | [] => none
  | event :: rest =>
    let source := { source with
      queue := rest
      received := source.received + 1
      overflows := source.overflows + if event.kind = .overflow then 1 else 0 }
    some (event, if event.kind = .ignored then source.forget event.watch else source)

def reset (source : Source) : Except SourceError Source :=
  if source.refusesReset then .error .resetRefused
  else .ok { source with live := [], queue := [], resets := source.resets + 1 }

end Source

end TreeWatch
