/-!
# Levels and categories of log lines

Errors, warnings and information are always written. Debug lines belong to one of six categories,
and a mask says which of these are written.
-/

namespace TreeWatch

namespace Log

inductive Level where
  | error
  | warn
  | info
  | debug
  | trace
  deriving DecidableEq, Repr

def Level.all : List Level := [.error, .warn, .info, .debug, .trace]

/-- What is written whatever the mask says. -/
def Level.isAlwaysOn : Level → Bool
  | .error | .warn | .info => true
  | .debug | .trace => false

def Level.label : Level → String
  | .error => "ERROR"
  | .warn => "WARN"
  | .info => "INFO"
  | .debug => "DEBUG"
  | .trace => "TRACE"

/-- The kinds of debug output that can be asked for one by one. -/
inductive Category where
  /-- Every event read from the event source. -/
  | events
  /-- Entries added to the watch table, removed and renamed. -/
  | cache
  /-- Root validation and retirement. -/
  | roots
  /-- Pairing of rename halves. -/
  | renames
  /-- The result of a consistency check for each entry. -/
  | check
  /-- Subtree walks and rebuilds. -/
  | rescan
  deriving DecidableEq, Repr

namespace Category

def all : List Category := [.events, .cache, .roots, .renames, .check, .rescan]

def label : Category → String
  | .events => "dtree::events"
  | .cache => "dtree::cache"
  | .roots => "dtree::roots"
  | .renames => "dtree::renames"
  | .check => "dtree::check"
  | .rescan => "dtree::rescan"

def flag : Category → UInt32
  | .events => 0x01
  | .cache => 0x02
  | .roots => 0x04
  | .renames => 0x08
  | .check => 0x10
  | .rescan => 0x20

end Category

end Log

end TreeWatch
