import TreeWatch.Text.Utf8

/-!
# Switches

What may be set on the command line, each under a long name and mostly under a letter as well.
-/

namespace TreeWatch

namespace CommandLine

inductive Switch where
  /-- The file that settings are read from. -/
  | config
  | verbosity
  | logFile
  | rebuildOnProblem
  | abortOnProblem
  | stopFile
  | overflow
  | checkInterval
  | maxChecks
  | duration
  | renameWindow
  | help
  | version
  deriving DecidableEq, Repr

namespace Switch

def all : List Switch :=
  [config, verbosity, logFile, rebuildOnProblem, abortOnProblem, stopFile, overflow, checkInterval,
    maxChecks, duration, renameWindow, help, version]

def long : Switch → String
  | config => "config"
  | verbosity => "verbosity"
  | logFile => "log-file"
  | rebuildOnProblem => "rebuild-on-problem"
  | abortOnProblem => "abort-on-problem"
  | stopFile => "stop-file"
  | overflow => "overflow"
  | checkInterval => "check-interval"
  | maxChecks => "max-checks"
  | duration => "duration"
  | renameWindow => "rename-window"
  | help => "help"
  | version => "version"

def letter? : Switch → Option Char
  | config => some 'c'
  | verbosity => some 'v'
  | logFile => some 'l'
  | rebuildOnProblem => some 'x'
  | abortOnProblem => none
  | stopFile => some 's'
  | overflow => none
  | checkInterval => some 'i'
  | maxChecks => some 'm'
  | duration => some 'd'
  | renameWindow => some 'w'
  | help => some 'h'
  | version => some 'V'

def takesValue : Switch → Bool
  | rebuildOnProblem | abortOnProblem | help | version => false
  | _ => true

def ofLong? (name : Bytes) : Option Switch := all.find? (.ofString ·.long == name)

/-- The switch with a letter, given as a byte. -/
def ofLetter? (b : UInt8) : Option Switch :=
  all.find? fun switch => switch.letter?.any (·.toNat == b.toNat)

/-- What a value is called in messages: the long name in capitals. -/
def valueName (switch : Switch) : String :=
  .ofList (switch.long.toList.map fun c => if c = '-' then '_' else c.toUpper)

def heading (switch : Switch) : String :=
  if switch.takesValue then s!"--{switch.long} <{switch.valueName}>" else s!"--{switch.long}"

def purpose : Switch → String
  | config => "Config file (default: ~/.config/dtree/config.toml)"
  | verbosity =>
    "Debug category mask, decimal or 0x-prefixed " ++
      "(1 events, 2 cache, 4 roots, 8 renames, 0x10 check, 0x20 rescan)"
  | logFile => "Also log to this file"
  | rebuildOnProblem => "Rebuild the cache on a cache problem instead of aborting"
  | abortOnProblem => "Abort on a cache problem (the default unless the config says otherwise)"
  | stopFile => "File to create before aborting"
  | overflow => "Overflow handling: rescan or abort"
  | checkInterval => "Seconds between consistency checks (0 = only on command)"
  | maxChecks => "Stop after this many periodic checks (0 = never)"
  | duration => "Stop after this many seconds (0 = never)"
  | renameWindow => "Milliseconds to wait for the second half of a rename"
  | help => "Print help"
  | version => "Print version"

end Switch

end CommandLine

end TreeWatch
