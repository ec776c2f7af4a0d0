import TreeWatch.Log.Mask

/-!
# Log lines

What the program has to say while it works. Lines are collected in order and filtered when they are
written, so that what a step says can be stated without knowing the mask.
-/

namespace TreeWatch

namespace Log

structure Line where
  level : Level
  category : Option Category
  text : String
  deriving DecidableEq, Repr

namespace Line

def error (text : String) : Line := ⟨.error, none, text⟩
def warn (text : String) : Line := ⟨.warn, none, text⟩
def info (text : String) : Line := ⟨.info, none, text⟩
def debug (category : Category) (text : String) : Line := ⟨.debug, some category, text⟩

/-- Whether the mask lets the line through. A debug line without a category never passes. -/
def isVisible (mask : Mask) (line : Line) : Bool :=
  line.level.isAlwaysOn ||
    line.level == .debug && line.category.any mask.has

/-- The line as it is written: the level, the category if there is one, the text. -/
def render (line : Line) : String :=
  match line.category with
  | some category => line.level.label ++ " [" ++ category.label ++ "] " ++ line.text
  | none => line.level.label ++ " " ++ line.text

end Line

/-- What is written of `lines` under a mask. -/
def written (mask : Mask) (lines : List Line) : List String :=
  (lines.filter (·.isVisible mask)).map Line.render

theorem isVisible_of_isAlwaysOn {line : Line} (mask : Mask) (h : line.level.isAlwaysOn = true) :
    line.isVisible mask = true := by
  simp [Line.isVisible, h]

end Log

end TreeWatch
