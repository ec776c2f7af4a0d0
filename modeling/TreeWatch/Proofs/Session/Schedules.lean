import TreeWatch.Proofs.Session.Outcomes

/-!
# Scheduled sessions take turns

A schedule settles which wake comes first and when. What it makes of a session is one of the rows of
turns that the session can take, with what happens around it as the supply of the turns.
-/

namespace TreeWatch

namespace Session

variable {s : Session} {calls more : List Source.Call}

theorem supplied_nil : s.supplied [] = s := rfl

theorem supplied_append : s.supplied (calls ++ more) = (s.supplied calls).supplied more := by
  simp only [supplied, Source.outcome_append]

end Session

def Finish.result? : Finish → Option (Except Fault Outcome)
  | .stopped outcome => some (.ok outcome)
  | .failed fault => some (.error fault)
  | .pastClock | .asleep | .unfinished => none

namespace Schedule

open Session (Turn Run)

variable {schedule next : Schedule} {s : Session} {wake : Wake}

theorem exists_supply_of_letHappen (now : Nat) (happenings : List (Nat × Happening))
    (tree : FileTree) (source : Source) :
    ∃ calls : List Source.Call, (∀ call ∈ calls, call.supplies = true) ∧
      (letHappen now happenings tree source).2.2 = source.outcome calls := by
  induction happenings generalizing tree source with
  | nil => exact ⟨[], nofun, rfl⟩
  | cons happening rest ih =>
    obtain ⟨due, happening⟩ := happening
    unfold letHappen
    split
    · exact ⟨[], nofun, rfl⟩
    · cases happening with
      | change changes => exact ih _ source
      | event event =>
        obtain ⟨calls, hcalls, hsource⟩ := ih tree (source.push event)
        exact ⟨⟨tree, .push event⟩ :: calls, List.forall_mem_cons.mpr ⟨rfl, hcalls⟩, hsource⟩
      | close =>
        obtain ⟨calls, hcalls, hsource⟩ := ih tree { source with closed := true }
        exact ⟨⟨tree, .close⟩ :: calls, List.forall_mem_cons.mpr ⟨rfl, hcalls⟩, hsource⟩
      | failure =>
        obtain ⟨calls, hcalls, hsource⟩ := ih tree { source with failing := true }
        exact ⟨⟨tree, .fail⟩ :: calls, List.forall_mem_cons.mpr ⟨rfl, hcalls⟩, hsource⟩

theorem exists_supply_of_settled (schedule : Schedule) :
    ∃ calls : List Source.Call, (∀ call ∈ calls, call.supplies = true) ∧
      schedule.settled.session = schedule.session.supplied calls := by
  obtain ⟨calls, hcalls, hsource⟩ := exists_supply_of_letHappen schedule.now schedule.happenings
    schedule.tree schedule.session.tracker.source
  refine ⟨calls, hcalls, ?_⟩
  rw [Session.supplied, ← hsource]
  rfl

/-- The clocks of a schedule run only if its session has set them. -/
structure IsTimed (schedule : Schedule) : Prop where
  check : schedule.nextCheck.isSome = true → schedule.session.options.checkInterval.isSome = true
  deadline : schedule.deadline.isSome = true → schedule.session.options.duration.isSome = true

theorem isTimed_begin (session : Session) (tree : FileTree) (clock : Nat)
    (happenings : List (Nat × Happening)) (commands : List (Nat × Control.Command)) :
    (begin session tree clock happenings commands).IsTimed :=
  ⟨fun h => h, fun h => h⟩

theorem isSome_of_isDue {time : Option Nat} (h : schedule.isDue time = true) :
    time.isSome = true := by
  cases time with
  | none => cases h
  | some time => rfl

/-- How a wake is taken up: what is there for it, and what is left of the schedule. -/
inductive TakesUp (schedule : Schedule) : Wake → Schedule → Prop
  | source (hready : sourceIsReady schedule.session.tracker.source = true) :
      TakesUp schedule .source schedule
  | command {due : Nat} {command : Control.Command} {rest : List (Nat × Control.Command)}
      (hcommands : schedule.commands = (due, command) :: rest) (hdue : due ≤ schedule.now) :
      TakesUp schedule (.command command) { schedule with commands := rest }
  | window (hdue : schedule.isDue schedule.windowEnd? = true) :
      TakesUp schedule .windowElapsed schedule
  | check (hdue : schedule.isDue schedule.nextCheck = true) :
      TakesUp schedule .checkDue { schedule with
        nextCheck := schedule.session.options.checkInterval.map (schedule.now + ·) }
  | deadline (hdue : schedule.isDue schedule.deadline = true) : TakesUp schedule .deadline schedule

theorem takesUp_of_wake? (h : schedule.wake? = some (wake, next)) : TakesUp schedule wake next := by
  have htimer (h : wake?.timer schedule = some (wake, next)) : TakesUp schedule wake next := by
    unfold wake?.timer at h
    split at h
    · next hdue =>
      cases h
      exact .window hdue
    · split at h
      · next hdue =>
        cases h
        exact .check hdue
      · split at h
        · next hdue =>
          cases h
          exact .deadline hdue
        · cases h
  unfold wake? at h
  split at h
  · next hready =>
    cases h
    exact .source hready
  · split at h
    · next hcommands =>
      split at h
      · next hdue =>
        cases h
        exact .command hcommands hdue
      · exact htimer h
    · exact htimer h

namespace TakesUp

theorem eq (h : TakesUp schedule wake next) :
    next.session = schedule.session ∧ next.tree = schedule.tree ∧ next.now = schedule.now ∧
      next.happenings = schedule.happenings ∧ next.deadline = schedule.deadline := by
  cases h <;> exact ⟨rfl, rfl, rfl, rfl, rfl⟩

theorem waits (hdue : schedule.isDue schedule.windowEnd? = true) :
    schedule.session.tracker.departures.isEmpty = false := by
  have hsome := isSome_of_isDue hdue
  simp only [windowEnd?, Tracker.departureWait?, Departures.oldest?, Option.isSome_map,
    List.isSome_head?] at hsome
  simpa [Departures.isEmpty] using hsome

theorem isTimed (h : TakesUp schedule wake next) (htimed : schedule.IsTimed) : next.IsTimed := by
  cases h with
  | check hdue => exact ⟨fun _ => htimed.check (isSome_of_isDue hdue), htimed.deadline⟩
  | _ => exact ⟨htimed.check, htimed.deadline⟩

theorem isReady (h : TakesUp schedule wake next) (htimed : schedule.IsTimed)
    {supply : List Source.Call} (hsession : schedule.session = s.supplied supply)
    (moment : Moment) :
    (Turn.mk s supply moment wake).isReady = true := by
  cases h with
  | source hready => rwa [hsession] at hready
  | command => rfl
  | window hdue =>
    have hwaits := waits hdue
    rw [hsession] at hwaits
    exact congrArg not hwaits
  | check hdue =>
    have hinterval := htimed.check (isSome_of_isDue hdue)
    rwa [hsession] at hinterval
  | deadline hdue =>
    have hduration := htimed.deadline (isSome_of_isDue hdue)
    rwa [hsession] at hduration

theorem commands_subset (h : TakesUp schedule wake next) : next.commands ⊆ schedule.commands := by
  cases h with
  | command hcommands => exact hcommands ▸ List.subset_cons_self _ _
  | _ => exact List.Subset.refl _

theorem isDue_of_check (h : TakesUp schedule .checkDue next) :
    schedule.isDue schedule.nextCheck = true := by
  cases h with
  | check hdue => exact hdue

theorem nextCheck_of_check (h : TakesUp schedule .checkDue next) :
    next.nextCheck = schedule.session.options.checkInterval.map (schedule.now + ·) := by
  cases h
  rfl

theorem nextCheck_of_ne (h : TakesUp schedule wake next) (hne : wake ≠ .checkDue) :
    next.nextCheck = schedule.nextCheck := by
  cases h with
  | check => exact absurd rfl hne
  | _ => rfl

end TakesUp

def finish? : Except Fault (Option Outcome) → Option Finish
  | .ok none => none
  | .ok (some outcome) => some (.stopped outcome)
  | .error fault => some (.failed fault)

theorem finish?_eq_none {turn : Turn} (h : finish? turn.reply.result = none) :
    turn.reply.result = .ok none := by
  cases hresult : turn.reply.result with
  | error fault => simp [finish?, hresult] at h
  | ok outcome =>
    cases outcome with
    | none => rfl
    | some outcome => simp [finish?, hresult] at h

theorem finish?_ne_asleep {result : Except Fault (Option Outcome)} :
    finish? result ≠ some .asleep := by
  rcases result with fault | _ | outcome <;> nofun

theorem finish?_eq_some {turn : Turn} {finish : Finish}
    (h : finish? turn.reply.result = some finish) :
    turn.result? = finish.result? := by
  unfold Turn.result?
  cases hresult : turn.reply.result with
  | error fault =>
    rw [hresult] at h
    cases h
    rfl
  | ok outcome =>
    cases outcome with
    | none => simp [finish?, hresult] at h
    | some outcome =>
      rw [hresult] at h
      cases h
      rfl

/-- What advancing makes of a session that was in some state after its last turn. -/
inductive Advances : Session → Option Finish → Session → Prop
  | turn (turn : Turn) (hsupply : ∀ call ∈ turn.supply, call.supplies = true)
      (hready : turn.isReady = true) : Advances turn.start (finish? turn.reply.result) turn.after
  /-- Time passes, or nothing is going to happen. -/
  | wait (s : Session) (supply : List Source.Call) (hsupply : ∀ call ∈ supply, call.supplies = true)
      (finish : Option Finish) (hfinish : finish = none ∨ finish = some .asleep) :
      Advances s finish (s.supplied supply)

theorem advance_of_wake (h : schedule.settled.wake? = some (wake, next)) :
    schedule.advance =
      let reply := Session.handle wake ⟨next.tree, next.now⟩ next.session
      (finish? reply.result, { next with session := reply.state }, reply.log) := by
  simp only [advance, h]
  rcases (Session.handle wake ⟨next.tree, next.now⟩ next.session).result with fault | outcome
  · rfl
  · cases outcome <;> rfl

theorem advance_of_no_wake (h : schedule.settled.wake? = none) :
    (schedule.advance.1 = none ∨ schedule.advance.1 = some .asleep) ∧
      schedule.advance.2.1.session = schedule.settled.session ∧
      schedule.advance.2.1.nextCheck = schedule.nextCheck ∧
      schedule.advance.2.1.deadline = schedule.deadline := by
  simp only [advance, h]
  cases schedule.settled.nextTime? with
  | none => exact ⟨.inr rfl, rfl, rfl, rfl⟩
  | some time => exact ⟨.inl rfl, rfl, rfl, rfl⟩

theorem advance_of_passing {time : Nat} (h : schedule.settled.wake? = none)
    (hnext : schedule.settled.nextTime? = some time) :
    schedule.advance = (none, { schedule.settled with now := time }, []) := by
  simp only [advance, h, hnext]

/-- Advancing a schedule is a turn of its session, or the session waits. -/
theorem advances {supply : List Source.Call} (htimed : schedule.IsTimed)
    (hsupply : ∀ call ∈ supply, call.supplies = true)
    (hsession : schedule.session = s.supplied supply) :
    Advances s schedule.advance.1 schedule.advance.2.1.session ∧ schedule.advance.2.1.IsTimed := by
  obtain ⟨calls, hcalls, hsettled⟩ := exists_supply_of_settled schedule
  rw [hsession, ← Session.supplied_append] at hsettled
  have hall : ∀ call ∈ supply ++ calls, call.supplies = true := by
    intro call hcall
    exact (List.mem_append.mp hcall).elim (hsupply call) (hcalls call)
  have htimed : schedule.settled.IsTimed := ⟨htimed.check, htimed.deadline⟩
  cases hwake : schedule.settled.wake? with
  | none =>
    obtain ⟨hfinish, hsame, hcheck, hdeadline⟩ := advance_of_no_wake hwake
    constructor
    · rw [hsame, hsettled]
      exact .wait s _ hall _ hfinish
    · constructor
      · rw [hsame, hcheck]
        exact htimed.check
      · rw [hsame, hdeadline]
        exact htimed.deadline
  | some found =>
    obtain ⟨wake, next⟩ := found
    have htaken := takesUp_of_wake? hwake
    have htimed' := htaken.isTimed htimed
    let turn : Turn := ⟨s, supply ++ calls, ⟨next.tree, next.now⟩, wake⟩
    have hbefore : next.session = turn.before := htaken.eq.1.trans hsettled
    have hoptions : turn.after.options = next.session.options := by
      rw [turn.checksRun_after.2, hbefore]
    rw [advance_of_wake hwake, hbefore]
    constructor
    · exact .turn turn hall (htaken.isReady htimed hsettled _)
    · constructor
      · exact fun hsome => hoptions ▸ htimed'.check hsome
      · exact fun hsome => hoptions ▸ htimed'.deadline hsome

theorem follow_of_some {limit : Nat} {finish : Finish} (h : schedule.advance.1 = some finish) :
    (follow (limit + 1) schedule).1 = finish ∧
      (follow (limit + 1) schedule).2.1 = schedule.advance.2.1 := by
  rcases hadvance : schedule.advance with ⟨found, next, log⟩
  obtain rfl : found = some finish := by rw [← h, hadvance]
  simp [follow, hadvance]

theorem follow_of_none {limit : Nat} (h : schedule.advance.1 = none) :
    (follow (limit + 1) schedule).1 = (follow limit schedule.advance.2.1).1 ∧
      (follow (limit + 1) schedule).2.1 = (follow limit schedule.advance.2.1).2.1 := by
  rcases hadvance : schedule.advance with ⟨found, next, log⟩
  obtain rfl : found = none := by rw [← h, hadvance]
  simp [follow, hadvance]

/-- What a schedule makes of a session is a row of turns, and it ends as they do. -/
theorem follow_takes_turns (limit : Nat) {supply : List Source.Call} (htimed : schedule.IsTimed)
    (hsupply : ∀ call ∈ supply, call.supplies = true)
    (hsession : schedule.session = s.supplied supply) :
    ∃ turns u more, Run s turns u ∧ (∀ call ∈ more, call.supplies = true) ∧
      (follow limit schedule).2.1.session = u.supplied more ∧
      turns.getLast?.bind Turn.result? = (follow limit schedule).1.result? := by
  induction limit generalizing schedule s supply with
  | zero => exact ⟨[], s, supply, .nil s, hsupply, hsession, rfl⟩
  | succ limit ih =>
    obtain ⟨hadvances, htimed'⟩ := advances htimed hsupply hsession
    generalize hfinish : schedule.advance.1 = finish at hadvances
    generalize hafter : schedule.advance.2.1.session = after at hadvances
    cases hadvances with
    | turn turn hsupply hready =>
      cases hended : finish? turn.reply.result with
      | some finish =>
        obtain ⟨hend, hlast⟩ := @follow_of_some _ limit _ (hfinish.trans hended)
        refine ⟨[turn], turn.after, [], .cons hsupply hready nofun (.nil _), nofun, ?_, ?_⟩
        · rw [hlast, hafter, Session.supplied_nil]
        · rw [hend, ← finish?_eq_some hended]
          rfl
      | none =>
        obtain ⟨hend, hlast⟩ := @follow_of_none _ limit (hfinish.trans hended)
        have hgoes := finish?_eq_none hended
        obtain ⟨turns, u, more, hrun, hmore, hsession, hresult⟩ :=
          @ih _ turn.after [] htimed' nofun (hafter.trans Session.supplied_nil.symm)
        rw [hend, hlast]
        refine ⟨turn :: turns, u, more, .cons hsupply hready (fun _ => hgoes) hrun, hmore,
          hsession, ?_⟩
        rw [← hresult]
        cases turns with
        | nil => simp [Turn.result?, hgoes]
        | cons second rest => rw [List.getLast?_cons_cons]
    | wait s supply hsupply finish hwaits =>
      rcases hwaits with rfl | rfl
      · obtain ⟨hend, hlast⟩ := @follow_of_none _ limit hfinish
        rw [hend, hlast]
        exact ih htimed' hsupply hafter
      · obtain ⟨hend, hlast⟩ := @follow_of_some _ limit _ hfinish
        exact ⟨[], s, supply, .nil s, hsupply, by rw [hlast, hafter], by rw [hend]; rfl⟩

theorem run_of_exhausted (limit : Nat) (h : schedule.session.tracker.flow = .rootsExhausted) :
    run limit schedule = (.stopped .rootsExhausted, schedule, []) := if_pos h

theorem run_of_isOnClock (limit : Nat) (h : schedule.session.tracker.flow ≠ .rootsExhausted)
    (hclock : schedule.isOnClock = true) : run limit schedule = follow limit schedule := by
  rw [run, if_neg h, if_pos hclock]

theorem run_of_not_isOnClock (limit : Nat) (h : schedule.session.tracker.flow ≠ .rootsExhausted)
    (hclock : schedule.isOnClock = false) : run limit schedule = (.pastClock, schedule, []) := by
  rw [run, if_neg h, if_neg (by simp [hclock])]

theorem isOnClock_iff : schedule.isOnClock = true ↔
    (∀ time, schedule.deadline = some time → schedule.clock + time < clockEnd) ∧
      ∀ time, schedule.nextCheck = some time → schedule.clock + time < clockEnd := by
  simp [isOnClock, Option.all_eq_true]

/-- A session that is run under a schedule takes turns, and its result is that of its turns. -/
theorem run_takes_turns (limit : Nat) (session : Session) (tree : FileTree) (clock : Nat)
    (happenings : List (Nat × Happening)) (commands : List (Nat × Control.Command)) :
    let schedule := begin session tree clock happenings commands
    ∃ turns u more, Run session turns u ∧ (∀ call ∈ more, call.supplies = true) ∧
      (run limit schedule).2.1.session = u.supplied more ∧
      session.result? turns = (run limit schedule).1.result? := by
  intro schedule
  by_cases hflow : session.tracker.flow = .rootsExhausted
  · refine ⟨[], session, [], .nil session, nofun, ?_, ?_⟩
    · rw [run_of_exhausted limit hflow]
      rfl
    · rw [run_of_exhausted limit hflow]
      exact if_pos hflow
  cases hclock : schedule.isOnClock with
  | false =>
    refine ⟨[], session, [], .nil session, nofun, ?_, ?_⟩
    · rw [run_of_not_isOnClock limit hflow hclock]
      rfl
    · rw [run_of_not_isOnClock limit hflow hclock]
      exact if_neg hflow
  | true =>
    obtain ⟨turns, u, more, hturns, hmore, hsession, hresult⟩ :=
      @follow_takes_turns schedule session limit []
        (isTimed_begin session tree clock happenings commands) nofun rfl
    refine ⟨turns, u, more, hturns, hmore, ?_, ?_⟩
    · rw [run_of_isOnClock limit hflow hclock]
      exact hsession
    · rw [run_of_isOnClock limit hflow hclock, ← hresult]
      unfold Session.result?
      cases turns.getLast? with
      | none => exact if_neg hflow
      | some turn => rfl

end Schedule

end TreeWatch
