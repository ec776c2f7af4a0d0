import TreeWatch.CommandLine.Basic

/-!
# Reading command lines

Arguments are read from left to right. A value is looked at when the next thing is taken up, so an
argument that is not known at all is reported before a bad value right in front of it, and a bad
value before anything later. Whether switches go together, and whether there are roots, is seen at
the end.
-/

namespace TreeWatch

namespace CommandLine

/-- What else a command line may ask for, instead of a run, or what is wrong with it. -/
inductive Refusal where
  | usage (error : UsageError)
  | help
  | version
  deriving DecidableEq, Repr

/-- What was taken up and not looked at yet. -/
inductive Pending where
  | nothing
  /-- A switch that takes a value, and the value once it has come. -/
  | value (switch : Switch) (value : Option Bytes)
  /-- Roots that follow each other. -/
  | roots (paths : List Bytes)
  deriving DecidableEq, Repr

structure Reading where
  line : CommandLine
  /-- The switches that were given so far. -/
  given : List Switch
  pending : Pending
  deriving Repr

namespace Reading

def start : Reading := ⟨.empty, [], .nothing⟩

def wrong {α : Type} (error : UsageError) : Except Refusal α := .error (.usage error)

/-- Gives a value to a switch that was not given yet. -/
def settle (reading : Reading) (switch : Switch) (value : Bytes) : Except Refusal Reading :=
  if reading.given.contains switch then wrong (.repeated switch)
  else
    match reading.line.assign switch value with
    | .ok line => .ok ⟨line, switch :: reading.given, .nothing⟩
    | .error error => wrong error

def resolve (reading : Reading) : Except Refusal Reading :=
  match reading.pending with
  | .nothing => .ok reading
  | .value switch none => wrong (.valueMissing (some switch))
  | .value switch (some value) => reading.settle switch value
  | .roots paths =>
    match paths.mapM (path none) with
    | .ok paths =>
      .ok { reading with
        line := { reading.line with roots := reading.line.roots ++ paths }, pending := .nothing }
    | .error error => wrong error

/-- Takes up a switch with a value in the same argument. -/
def attach (reading : Reading) (switch : Switch) (value : Bytes) : Except Refusal Reading := do
  let reading ← reading.resolve
  reading.settle switch value

/-- Takes up a switch whose value is the next argument. -/
def await (reading : Reading) (switch : Switch) : Except Refusal Reading := do
  let reading ← reading.resolve
  .ok { reading with pending := .value switch none }

def raise (reading : Reading) (switch : Switch) : Except Refusal Reading := do
  let reading ← reading.resolve
  match switch with
  | .help => .error .help
  | .version => .error .version
  | _ =>
    if reading.given.contains switch then wrong (.repeated switch)
    else .ok ⟨reading.line.raise switch, switch :: reading.given, .nothing⟩

/-- Takes up an argument that stands for itself: a value that is awaited, or else a root. -/
def takeWord (reading : Reading) (word : Bytes) : Except Refusal Reading :=
  match reading.pending with
  | .value switch none => .ok { reading with pending := .value switch (some word) }
  | .roots paths => .ok { reading with pending := .roots (paths ++ [word]) }
  | _ => do
    let reading ← reading.resolve
    .ok { reading with pending := .roots [word] }

def takeRoot (reading : Reading) (word : Bytes) : Except Refusal Reading :=
  match reading.pending with
  | .value _ none => reading.resolve
  | _ => reading.takeWord word

def dash : UInt8 := 45

def equals : UInt8 := 61

/-- The value in an argument after a letter: an equals sign in front does not belong to it. -/
def attached : Bytes → Bytes
  | [] => []
  | b :: rest => if b = equals then rest else b :: rest

/-- Takes up letters after one dash. A letter whose switch takes a value has what follows it as its
value. -/
def takeLetters (reading : Reading) : Bytes → Except Refusal Reading
  | [] => .ok reading
  | b :: rest =>
    match Switch.ofLetter? b with
    | none => wrong (.unknownArgument [dash, b])
    | some switch =>
      if switch.takesValue then
        if rest.isEmpty then reading.await switch else reading.attach switch (attached rest)
      else do
        let reading ← reading.raise switch
        takeLetters reading rest

/-- Takes up what follows two dashes: a name, and a value after an equals sign. -/
def takeLong (reading : Reading) (text : Bytes) : Except Refusal Reading :=
  let name := text.takeWhile (· != equals)
  let value := (text.dropWhile (· != equals)).tail?
  match Switch.ofLong? name, value with
  | none, _ => wrong (.unknownArgument (dash :: dash :: name))
  | some switch, some value =>
    if switch.takesValue then reading.attach switch value
    else wrong (.valueUnneeded switch value)
  | some switch, none => if switch.takesValue then reading.await switch else reading.raise switch

/-- Takes up one argument, before the two dashes that end the switches. A dash by itself is a
word. -/
def take (reading : Reading) (argument : Bytes) : Except Refusal Reading :=
  match argument with
  | first :: second :: rest =>
    if first ≠ dash then reading.takeWord argument
    else if second = dash then reading.takeLong rest
    else reading.takeLetters (second :: rest)
  | _ => reading.takeWord argument

/-- Takes up all arguments; after two dashes by themselves, all are roots. -/
def takeAll (reading : Reading) : List Bytes → Except Refusal Reading
  | [] => .ok reading
  | argument :: rest =>
    if argument = [dash, dash] then rest.foldlM takeRoot reading
    else do
      let reading ← reading.take argument
      takeAll reading rest

def finish (reading : Reading) : Except Refusal CommandLine := do
  let reading ← reading.resolve
  let line := reading.line
  if line.rebuildsOnProblem && line.abortsOnProblem then
    wrong (.conflicting .rebuildOnProblem .abortOnProblem)
  else if line.roots.isEmpty then wrong .rootsMissing
  else .ok line

end Reading

def read (arguments : List Bytes) : Except Refusal CommandLine := do
  let reading ← Reading.start.takeAll arguments
  reading.finish

end CommandLine

end TreeWatch
