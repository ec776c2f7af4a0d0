import TreeWatch.WatchTable.Basic
import TreeWatch.Text.Quoted

/-!
# Events

What an event source reports about watched directories. Only changes of the directory structure
matter.
-/

namespace TreeWatch

namespace Event

inductive Kind where
  /-- An entry was made in the watched directory. -/
  | create
  /-- The watched directory was deleted. -/
  | deleteSelf
  /-- The watched directory was moved. -/
  | moveSelf
  /-- An entry left the watched directory. -/
  | movedFrom
  /-- An entry arrived in the watched directory. -/
  | movedTo
  /-- The queue ran over and at least one event is lost. -/
  | overflow
  /-- The watch is gone; nothing follows for it. -/
  | ignored
  /-- The file system that holds the watched directory was unmounted. -/
  | unmount
  /-- Anything that has no bearing on the directory structure. -/
  | other
  deriving DecidableEq, Repr

def Kind.all : List Kind :=
  [.create, .deleteSelf, .moveSelf, .movedFrom, .movedTo, .overflow, .ignored, .unmount, .other]

def Kind.label : Kind → String
  | .create => "Create"
  | .deleteSelf => "DeleteSelf"
  | .moveSelf => "MoveSelf"
  | .movedFrom => "MovedFrom"
  | .movedTo => "MovedTo"
  | .overflow => "Overflow"
  | .ignored => "Ignored"
  | .unmount => "Unmount"
  | .other => "Other"

end Event

structure Event where
  /-- The watch that the event was reported on. -/
  watch : WatchId
  kind : Event.Kind
  /-- Whether the event is about a directory. -/
  isDirectory : Bool
  /-- What ties the halves of a rename together. -/
  cookie : Option Nat
  /-- The name of the entry in the watched directory. -/
  name : Option Bytes
  deriving DecidableEq, Repr

namespace Event

/-- An event about the watched directory itself. -/
def onWatch (watch : WatchId) (kind : Kind) : Event := ⟨watch, kind, false, none, none⟩

/-- An optional value between `Some(` and `)`. -/
def optionText (text : Option String) : String :=
  match text with
  | some text => s!"Some({text})"
  | none => "None"

def describe (event : Event) : String :=
  s!"watch {event.watch.text} {event.kind.label}" ++ (if event.isDirectory then " (dir)" else "") ++
    s!" cookie {optionText (event.cookie.map toString)}" ++
    s!" name {optionText (event.name.map quoteName)}"

end Event

end TreeWatch
