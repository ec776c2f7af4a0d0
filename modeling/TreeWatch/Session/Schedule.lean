import TreeWatch.Session.Basic

/-!
# Scheduled sessions

A schedule is a session together with what is going to happen around it: changes of the file tree,
events, the end or failure of the source, commands. Time stands still while anything is ready and
then jumps to the next moment at which something is.

What happens around a session takes effect in order, each happening when its time has come and when
the source has nothing left to hand out.

A session sets its deadline and its first check by the clock when it begins. A moment that the clock
cannot tell cannot be set, and the session is lost.
-/

namespace TreeWatch

inductive Happening where
  | change (changes : List FileTree.Change)
  | event (event : Event)
  | close
  | failure
  deriving Repr

structure Schedule where
  session : Session
  tree : FileTree
  /-- What the clock showed when the session began. -/
  clock : Nat
  /-- The time since then. -/
  now : Nat
  happenings : List (Nat × Happening)
  commands : List (Nat × Control.Command)
  nextCheck : Option Nat
  deadline : Option Nat
  deriving Repr

inductive Finish where
  | stopped (outcome : Outcome)
  | failed (fault : Fault)
  /-- The clock cannot tell the deadline or the first check. -/
  | pastClock
  /-- Nothing is going to happen any more. -/
  | asleep
  /-- The session was not followed any further. -/
  | unfinished
  deriving DecidableEq, Repr

namespace Schedule

def begin (session : Session) (tree : FileTree) (clock : Nat) (happenings : List (Nat × Happening))
    (commands : List (Nat × Control.Command)) : Schedule :=
  { session, tree, clock, now := 0, happenings, commands
    nextCheck := session.options.checkInterval
    deadline := session.options.duration }

/-- The first moment that the clock cannot tell: it counts seconds in a signed word of 64 bits. -/
def clockEnd : Nat := Nat.pow 2 63 * 1000

def isOnClock (schedule : Schedule) : Bool :=
  [schedule.deadline, schedule.nextCheck].all fun time => time.all (schedule.clock + · < clockEnd)

/-- Whether the source keeps nobody waiting. -/
def sourceIsReady (source : Source) : Bool :=
  !source.queue.isEmpty || source.closed || source.failing

/-- Lets what is due happen, as long as the source has nothing to hand out. -/
def letHappen (now : Nat) :
    List (Nat × Happening) → FileTree → Source → List (Nat × Happening) × FileTree × Source
  | [], tree, source => ([], tree, source)
  | (due, happening) :: rest, tree, source =>
    if sourceIsReady source || now < due then ((due, happening) :: rest, tree, source)
    else
      match happening with
      | .change changes => letHappen now rest (tree.applyAll changes).1 source
      | .event event => letHappen now rest tree (source.push event)
      | .close => letHappen now rest tree { source with closed := true }
      | .failure => letHappen now rest tree { source with failing := true }

def settled (schedule : Schedule) : Schedule :=
  let (happenings, tree, source) :=
    letHappen schedule.now schedule.happenings schedule.tree schedule.session.tracker.source
  { schedule with
    happenings, tree
    session.tracker.source := source }

/-- When the departure that waits longest has waited long enough. -/
def windowEnd? (schedule : Schedule) : Option Nat :=
  (schedule.session.tracker.departureWait? schedule.session.options.renameWindow schedule.now).map
    (schedule.now + ·)

def isDue (schedule : Schedule) (time : Option Nat) : Bool := time.any (· ≤ schedule.now)

/-- What wakes the session now, if anything does. -/
def wake? (schedule : Schedule) : Option (Wake × Schedule) :=
  if sourceIsReady schedule.session.tracker.source then some (.source, schedule)
  else
    match schedule.commands with
    | (due, command) :: rest =>
      if due ≤ schedule.now then some (.command command, { schedule with commands := rest })
      else timer
    | [] => timer
where
  timer : Option (Wake × Schedule) :=
    if schedule.isDue schedule.windowEnd? then some (.windowElapsed, schedule)
    else if schedule.isDue schedule.nextCheck then
      some (.checkDue, { schedule with
        nextCheck := schedule.session.options.checkInterval.map (schedule.now + ·) })
    else if schedule.isDue schedule.deadline then some (.deadline, schedule)
    else none

/-- The next moment at which something is ready. -/
def nextTime? (schedule : Schedule) : Option Nat :=
  [schedule.windowEnd?, schedule.nextCheck, schedule.deadline,
    schedule.happenings.head?.map (·.1), schedule.commands.head?.map (·.1)].filterMap id |>.min?

/-- Handles what is ready, or lets the time pass until something is. -/
def advance (schedule : Schedule) : Option Finish × Schedule × List Log.Line :=
  let schedule := schedule.settled
  match schedule.wake? with
  | some (wake, schedule) =>
    let reply := Session.handle wake ⟨schedule.tree, schedule.now⟩ schedule.session
    let finish :=
      match reply.result with
      | .ok none => none
      | .ok (some outcome) => some (.stopped outcome)
      | .error fault => some (.failed fault)
    (finish, { schedule with session := reply.state }, reply.log)
  | none =>
    match schedule.nextTime? with
    | some time => (none, { schedule with now := time }, [])
    | none => (some .asleep, schedule, [])

/-- Follows a session through at most `limit` advances. -/
def follow : (limit : Nat) → Schedule → Finish × Schedule × List Log.Line
  | 0, schedule => (.unfinished, schedule, [])
  | limit + 1, schedule =>
    match schedule.advance with
    | (some finish, schedule, log) => (finish, schedule, log)
    | (none, schedule, log) =>
      let (finish, schedule, more) := follow limit schedule
      (finish, schedule, log ++ more)

/-- Runs a session to its end. It does not begin if no root is live. -/
def run (limit : Nat) (schedule : Schedule) : Finish × Schedule × List Log.Line :=
  if schedule.session.tracker.flow = .rootsExhausted then
    (.stopped .rootsExhausted, schedule, [])
  else if schedule.isOnClock then follow limit schedule
  else (.pastClock, schedule, [])

def pastClockMessage : String := "overflow when adding duration to instant"

def finishLines : Finish → List Log.Line
  | .stopped outcome => [.info s!"monitoring stopped: {outcome.label}"]
  | _ => []

end Schedule

end TreeWatch
