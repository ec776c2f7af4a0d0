import TreeWatch.Log.Line
import TreeWatch.Path.Basic
import TreeWatch.Text.Quoted

/-!
# Control lines

Commands are given one to a line: a letter, and for a look-up a path after blanks. Blanks around
either do not count; a path keeps the blanks inside it.
-/

namespace TreeWatch

namespace Control

inductive Command where
  /-- Audit the table now. -/
  | check
  /-- Write the table to the log. -/
  | dump
  /-- Throw the table away and walk the roots again. -/
  | rebuild
  /-- Tell the watch of a path. -/
  | lookup (path : Path)
  /-- End the work. -/
  | quit
  deriving DecidableEq, Repr

/-- Why a line is no command. -/
inductive Refusal where
  | pathMissing
  /-- The line, without blanks around it. -/
  | unknown (line : List Char)
  deriving DecidableEq, Repr

def Refusal.message : Refusal → String
  | .pathMissing => "p needs a path"
  | .unknown line => s!"unknown command {quote line} (expected c, d, r, p <path> or q)"

/-- The verb of a line and its argument: what stands before the first blank, and what follows it
without blanks around it. -/
def verbAndArgument (line : List Char) : List Char × List Char :=
  (line.takeWhile (!isBlank ·), strip (line.dropWhile (!isBlank ·)))

def read (line : List Char) : Except Refusal Command :=
  match verbAndArgument (strip line) with
  | (['c'], []) => .ok .check
  | (['d'], []) => .ok .dump
  | (['r'], []) => .ok .rebuild
  | (['q'], []) => .ok .quit
  | (['p'], []) => .error .pathMissing
  | (['p'], path) => .ok (.lookup ⟨Utf8.encode path⟩)
  | _ => .error (.unknown (strip line))

/-- The command of a line, if it has one. A blank line is passed over and not read. -/
def command? (line : List Char) : Option Command :=
  if (strip line).isEmpty then none else (read line).toOption

/-- The warning about a line that is not blank and no command. -/
def lineWarnings (line : List Char) : List Log.Line :=
  if (strip line).isEmpty then []
  else
    match read line with
    | .ok _ => []
    | .error refusal => [.warn refusal.message]

/-- What control input comes to: the commands that were taken, how many they were counted to be, and
what was said on the way. -/
structure Intake where
  commands : List Command
  count : Nat
  log : List Log.Line
  deriving DecidableEq, Repr

/-- Takes the commands of lines in order, up to the first line that is not text. If nobody takes
commands any more, reading ends at the first one. -/
def takeLines (isTaken : Bool) : List Bytes → Intake
  | [] => ⟨[], 0, []⟩
  | line :: rest =>
    match Utf8.decode? line with
    | none => ⟨[], 0, [.warn "failed to read control input: stream did not contain valid UTF-8"]⟩
    | some text =>
      match command? text with
      | none =>
        let more := takeLines isTaken rest
        ⟨more.commands, more.count, lineWarnings text ++ more.log⟩
      | some command =>
        if isTaken then
          let more := takeLines isTaken rest
          ⟨command :: more.commands, more.count + 1, more.log⟩
        else ⟨[], 0, []⟩

/-- Takes the commands of a whole input. -/
def take (isTaken : Bool) (input : Bytes) : Intake := takeLines isTaken input.lines

end Control

end TreeWatch
