import TreeWatch.WatchTable.Basic

/-!
# Departures

A rename is reported in two halves, first that a directory left its parent and then that one
arrived, and a cookie says which halves belong together. First halves wait here for their second, in
the order of their arrival and at most one for each cookie.
-/

namespace TreeWatch

/-- The first half of a rename. -/
structure Departure where
  cookie : Nat
  /-- The watch of the directory that was left. -/
  parent : WatchId
  /-- The path before the move. -/
  path : Path
  /-- When the half was taken in, in milliseconds. -/
  since : Nat
  deriving DecidableEq, Repr

/-- The departures that wait, oldest first. -/
structure Departures where
  waiting : List Departure
  deriving DecidableEq, Repr

namespace Departures

def empty : Departures := ⟨[]⟩

def size (departures : Departures) : Nat := departures.waiting.length

def isEmpty (departures : Departures) : Bool := departures.waiting.isEmpty

def get? (departures : Departures) (cookie : Nat) : Option Departure :=
  departures.waiting.find? (·.cookie == cookie)

def contains (departures : Departures) (cookie : Nat) : Bool := (departures.get? cookie).isSome

def erase (departures : Departures) (cookie : Nat) : Departures :=
  ⟨departures.waiting.filter (·.cookie != cookie)⟩

/-- Puts a departure at the end, in the place of none: one with the same cookie gives way. -/
def insert (departures : Departures) (departure : Departure) : Departures :=
  ⟨(departures.erase departure.cookie).waiting ++ [departure]⟩

/-- When the departure that waits longest was taken in. -/
def oldest? (departures : Departures) : Option Nat := departures.waiting.head?.map (·.since)

end Departures

end TreeWatch
