import TreeWatch.Path.Basic

/-!
# Bounded paths

A table entry holds a path of at most `pathMax` bytes. A longer one is cut at that length, whatever
the cut does to its last component.
-/

namespace TreeWatch

/-- The longest path, in bytes, that is stored. -/
def pathMax : Nat := 4096

namespace Path

def isLong (p : Path) : Bool := pathMax < p.bytes.length

/-- The first `pathMax` bytes of the path. -/
def bounded (p : Path) : Path := if p.isLong then ⟨p.bytes.take pathMax⟩ else p

theorem bounded_eq_take (p : Path) : p.bounded = ⟨p.bytes.take pathMax⟩ := by
  unfold bounded isLong
  split
  · rfl
  · rename_i h
    rw [List.take_of_length_le (by simpa using h)]

end Path

end TreeWatch
