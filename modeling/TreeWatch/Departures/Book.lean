import Std.Data.HashMap
import TreeWatch.Departures

/-!
# A book of departures

How the departures that wait are found by their cookies. The book is a hash map, which has no order
of its own, so each departure is kept with the number of its arrival and the order is made again
when all are handed out. Numbers are never used twice, not even after the book has been emptied.

The same requests can be made to a book and to a list of departures.
-/

namespace TreeWatch

/-- A departure with the number of its arrival. -/
structure Arrival where
  number : UInt64
  departure : Departure

/-- Departures by their cookies, and the number of the next arrival. -/
structure DepartureBook where
  pending : Std.HashMap Nat Arrival
  next : UInt64

namespace DepartureBook

def empty : DepartureBook := ⟨∅, 0⟩

def size (book : DepartureBook) : Nat := book.pending.size

def isEmpty (book : DepartureBook) : Bool := book.pending.isEmpty

def contains (book : DepartureBook) (cookie : Nat) : Bool := book.pending.contains cookie

def get? (book : DepartureBook) (cookie : Nat) : Option Departure :=
  book.pending[cookie]?.map (·.departure)

/-- Takes a departure in. An earlier one with the same cookie is handed back. -/
def insert (book : DepartureBook) (departure : Departure) : Option Departure × DepartureBook :=
  (book.get? departure.cookie,
    ⟨book.pending.insert departure.cookie ⟨book.next, departure⟩, book.next + 1⟩)

/-- Hands out the departure with a cookie. -/
def take (book : DepartureBook) (cookie : Nat) : Option Departure × DepartureBook :=
  (book.get? cookie, { book with pending := book.pending.erase cookie })

def clear (book : DepartureBook) : DepartureBook := { book with pending := ∅ }

/-- A walk over the map meets its pairs in some order, and the map does not say in which. -/
abbrev Order := List (Nat × Arrival) → List (Nat × Arrival)

def arrivals (order : Order) (book : DepartureBook) : List Arrival :=
  (order book.pending.toList).map (·.2)

def oldest? (order : Order) (book : DepartureBook) : Option Nat :=
  ((book.arrivals order).map (·.departure.since)).min?

def drain (order : Order) (book : DepartureBook) : List Departure × DepartureBook :=
  (((book.arrivals order).mergeSort fun a b => a.number ≤ b.number).map (·.departure), book.clear)

end DepartureBook

namespace Departures

/-! ## Requests -/

inductive Request where
  | insert (departure : Departure)
  | take (cookie : Nat)
  | contains (cookie : Nat)
  | drain
  | clear

inductive Answer where
  | one (departure? : Option Departure)
  | whether (held : Bool)
  | all (departures : List Departure)
  | nothing
  deriving DecidableEq, Repr

/-- What a request shows: its answer, and what can be asked at any time after it. -/
structure Observation where
  answer : Answer
  size : Nat
  isEmpty : Bool
  oldest? : Option Nat
  deriving DecidableEq, Repr

def perform (departures : Departures) : Request → Answer × Departures
  | .insert departure => (.one (departures.get? departure.cookie), departures.insert departure)
  | .take cookie => (.one (departures.get? cookie), departures.erase cookie)
  | .contains cookie => (.whether (departures.contains cookie), departures)
  | .drain => (.all departures.waiting, .empty)
  | .clear => (.nothing, .empty)

/-- One request after the other, with what each of them shows. -/
def serve : List Request → Departures → List Observation × Departures
  | [], departures => ([], departures)
  | request :: rest, departures =>
    let (answer, next) := departures.perform request
    let (observations, last) := serve rest next
    (⟨answer, next.size, next.isEmpty, next.oldest?⟩ :: observations, last)

end Departures

namespace DepartureBook

def perform (order : Order) (book : DepartureBook) :
    Departures.Request → Departures.Answer × DepartureBook
  | .insert departure => let (earlier, next) := book.insert departure; (.one earlier, next)
  | .take cookie => let (departure, next) := book.take cookie; (.one departure, next)
  | .contains cookie => (.whether (book.contains cookie), book)
  | .drain => let (departures, next) := book.drain order; (.all departures, next)
  | .clear => (.nothing, book.clear)

/-- One request after the other, with what each of them shows. -/
def serve (order : Order) : List Departures.Request → DepartureBook →
    List Departures.Observation × DepartureBook
  | [], book => ([], book)
  | request :: rest, book =>
    let (answer, next) := book.perform order request
    let (observations, last) := serve order rest next
    (⟨answer, next.size, next.isEmpty, next.oldest? order⟩ :: observations, last)

end DepartureBook

end TreeWatch
