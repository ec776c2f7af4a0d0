/-!
# Refusals of the file system

The ways in which looking at, reading or making an entry can fail, and the text that reports each.
-/

namespace TreeWatch

inductive IoError where
  | noEntry
  | entryExists
  | notDirectory
  | isDirectory
  | nameTooLong
  | linkLoop
  /-- The path holds a NUL byte, so no entry can have it. -/
  | nulByte
  /-- The content is not text. -/
  | notText
  deriving DecidableEq, Repr

def IoError.message : IoError → String
  | .noEntry => "No such file or directory (os error 2)"
  | .entryExists => "File exists (os error 17)"
  | .notDirectory => "Not a directory (os error 20)"
  | .isDirectory => "Is a directory (os error 21)"
  | .nameTooLong => "File name too long (os error 36)"
  | .linkLoop => "Too many levels of symbolic links (os error 40)"
  | .nulByte => "file name contained an unexpected NUL byte"
  | .notText => "stream did not contain valid UTF-8"

end TreeWatch
