import TreeWatch.WatchTable.Basic
import TreeWatch.Text.Lines

/-!
# Listings of a watch table

A listing has a line with the numbers of entries and slots, and a line for each entry in slot order:
the slot, the watch and the path.
-/

namespace TreeWatch

namespace WatchTable

def headLine (table : WatchTable) : String :=
  s!"watch cache: {table.size} active entries in {table.capacity} slots"

def entryLine (slot : Nat) (entry : Entry) : String :=
  s!"{slot} {entry.id.text}  {entry.path.display}"

/-- The listing as text, with an end to every line. -/
def listing (table : WatchTable) : String :=
  .join ((table.headLine :: table.active.map fun (slot, entry) => entryLine slot entry).map
    (· ++ "\n"))

/-- The lines of the listing as a reader finds them, a path with a line end in it taking several. -/
def listingLines (table : WatchTable) : List String :=
  (textLines table.listing.toList).map String.ofList

end WatchTable

end TreeWatch
