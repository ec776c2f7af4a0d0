import TreeWatch.Log.Category
import TreeWatch.Text.Blank
import TreeWatch.Text.Numeral

/-!
# Category masks

A mask is a word with one bit for each category. It is given as a decimal numeral, or in base
sixteen after `0x`; bits that stand for no category are carried along and mean nothing.
-/

namespace TreeWatch

namespace Log

abbrev Mask := UInt32

namespace Mask

/-- The bits that stand for a category. -/
def known (mask : Mask) : Mask := mask &&& 0x3F

def has (mask : Mask) (category : Category) : Bool := mask &&& category.flag != 0

/-- The category names in bit order, each with whether it is on. -/
def switches (mask : Mask) : List (String × Bool) :=
  Category.all.map fun category => (category.label, mask.has category)

def read (text : List Char) : Except NumeralError Mask :=
  let value :=
    match strip text with
    | '0' :: 'x' :: digits | '0' :: 'X' :: digits => Numeral.read 16 (Nat.pow 2 32) digits
    | digits => Numeral.read 10 (Nat.pow 2 32) digits
  value.map UInt32.ofNat

/-- Whether a line of this level from a source of this name is written. A category speaks for every
name that begins with its own; where none does, the levels that are always on decide. -/
def enables (mask : Mask) (name : String) (level : Level) : Bool :=
  level.isAlwaysOn ||
    level == .debug && Category.all.any fun category =>
      mask.has category && category.label.toList.isPrefixOf name.toList

end Mask

end Log

end TreeWatch
