/-!
# Contents of a TOML document

A document puts values at places. A place is a path of keys and of positions in arrays; what stands
there is a value or a container, and a container holds what stands at the places below it. Tables
remember how they came about, because that decides what may still be added to them.
-/

namespace TreeWatch

namespace Toml

/-- One step from a container to what it holds. -/
inductive Step where
  | key (name : List Char)
  | item (index : Nat)
  deriving DecidableEq, Repr

abbrev Place := List Step

/-- How a table came about. -/
inductive Origin where
  /-- It has a header of its own. -/
  | header
  /-- It was passed through by a header further down. -/
  | passedByHeader
  /-- It was passed through by a dotted key. -/
  | passedByKey
  deriving DecidableEq, Repr

inductive Node where
  | text (chars : List Char)
  | integer (value : Int)
  | float
  | boolean (value : Bool)
  | dateTime
  | array
  | inlineTable
  | table (origin : Origin)
  /-- Tables under one header with double brackets. -/
  | tables (count : Nat)
  deriving DecidableEq, Repr

/-- A key of one or more names: those on the way and the last one. -/
structure Key where
  path : List (List Char)
  name : List Char
  deriving DecidableEq, Repr

/-- What a document holds, in the order of appearance. -/
abbrev Contents := List (Place × Node)

namespace Contents

def get? (contents : Contents) (place : Place) : Option Node := contents.lookup place

def put (contents : Contents) (place : Place) (node : Node) : Contents :=
  if (contents.get? place).isSome then
    contents.map fun entry => if entry.1 = place then (place, node) else entry
  else contents ++ [(place, node)]

/-- The steps that lead from a container to what it holds. -/
def steps (contents : Contents) (place : Place) : List Step :=
  contents.filterMap fun entry =>
    if place.isPrefixOf entry.1 ∧ entry.1.length = place.length + 1 then entry.1.getLast? else none

/-- The same contents below another place. -/
def within (place : Place) (contents : Contents) : Contents :=
  contents.map fun entry => (place ++ entry.1, entry.2)

/-- Follows names down from a table and gives the place they lead to; tables that are missing on the
way are made. Of tables under one header the last is meant, and a dotted key passes through no table
that has a header of its own. -/
def descend (made : Origin) :
    (names : List (List Char)) → Contents → Place → Option (Contents × Place)
  | [], contents, place => some (contents, place)
  | name :: names, contents, place =>
    let next := place ++ [.key name]
    match contents.get? next with
    | none => descend made names (contents.put next (.table made)) next
    | some (.table origin) =>
      if made = .passedByKey ∧ origin = .header then none else descend made names contents next
    | some (.tables count) => descend made names contents (next ++ [.item (count - 1)])
    | some _ => none

/-- Gives a value to a key of the table at `table`. The key must be new there, and a dotted key may
add to a table only if dotted keys made it. -/
def insert? (contents : Contents) (table : Place) (key : Key) (value : Contents) :
    Option Contents := do
  let (contents, place) ← descend .passedByKey key.path contents table
  let byKey := contents.get? place == some (.table .passedByKey)
  if byKey = key.path.isEmpty ∨ (contents.get? (place ++ [.key key.name])).isSome then none
  else some (contents ++ value.within (place ++ [.key key.name]))

end Contents

end Toml

end TreeWatch
