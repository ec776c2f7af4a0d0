import TreeWatch.CommandLine.Switch

/-!
# Help

What the program tells about itself.
-/

namespace TreeWatch

namespace CommandLine

def versionText : String := "dtree 0.1.0\n"

def Switch.helpLines (switch : Switch) : String :=
  let letter :=
    match switch.letter? with
    | some letter => s!"-{letter}, "
    | none => "    "
  s!"  {letter}{switch.heading}\n          {switch.purpose}\n"

def helpText : String :=
  "dtree - keep an in-memory mirror of directory trees in step with the kernel\n\n" ++
  "Usage: dtree [OPTIONS] <ROOTS>...\n\n" ++
  "Arguments:\n  <ROOTS>...  Root directories to monitor\n\n" ++
  "Options:\n" ++ "".intercalate (Switch.all.map Switch.helpLines)

end CommandLine

end TreeWatch
