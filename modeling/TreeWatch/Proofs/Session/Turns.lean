import TreeWatch.Proofs.Tracker.Asking
import TreeWatch.Proofs.Tracker.Retirements
import TreeWatch.Session.Schedule

/-!
# Turns of a session

A turn is one wake, with what came from around since the one before: events, the end of the source,
other rules for it. The file tree and the clock may be anything in each turn, and which of the wakes
that are ready comes first is left open, so a row of turns is what a session does under some
schedule.

What a turn does is read here off the action that handles its wake, once for each kind of wake.
-/

namespace TreeWatch

namespace Session

open TreeWatch.Action Tracker

variable {moment : Moment} {s u : Session} {done : Option Outcome → Session → Prop}
  {failed : Fault → Session → Prop}

section Endings

theorem ends_onTracker {α : Type} {x : Action Tracker α} {done : α → Session → Prop} :
    (onTracker x).Ends moment s done failed ↔
      x.Ends moment s.tracker (fun a tracker => done a { s with tracker })
        fun fault tracker => failed fault { s with tracker } := ends_onPart

theorem ends_expire :
    expire.Ends moment s done failed ↔ done none { s with tracker := s.tracker.expired } := by
  rw [expire, ends_bind, ends_onTracker, Tracker.ends_expire]
  rfl

/-- The reason to stop that the flow after a wake gives. -/
def ofFlow : Flow → Option Outcome
  | .goesOn => none
  | .rootsExhausted => some .rootsExhausted

theorem ends_stopIfExhausted :
    stopIfExhausted.Ends moment s done failed ↔ done (ofFlow s.tracker.flow) s := by
  rw [stopIfExhausted, ends_bind, ends_state]
  cases s.tracker.flow <;> rfl

theorem ends_onSource :
    onSource.Ends moment s done failed ↔
      match s.tracker.source.next? with
      | some (event, source) =>
        (Tracker.handle event).Ends moment { s.tracker with source }
          (fun flow tracker => done (ofFlow flow) { s with tracker })
          fun fault tracker => failed fault { s with tracker }
      | none =>
        if s.tracker.source.failing then failed (.source .eventsFailed) s
        else if s.tracker.departures.isEmpty then done (some .sourceClosed) s
        else done none { s with tracker := s.tracker.expired } := by
  rw [onSource, ends_bind, ends_state]
  cases hnext : s.tracker.source.next? with
  | some taken =>
    have hqueue : s.tracker.source.queue.isEmpty = false := by
      rw [List.isEmpty_eq_false_iff, ne_eq, ← Source.next?_eq_none_iff, hnext]
      exact nofun
    simp only [hqueue, Bool.false_and, Bool.false_eq_true, if_false, ends_bind, ends_onTracker,
      Tracker.ends_takeEvent, hnext]
    apply iff_of_eq
    congr 1
    funext flow tracker
    cases flow <;> rfl
  | none =>
    have hqueue : s.tracker.source.queue.isEmpty = true :=
      List.isEmpty_iff.mpr (Source.next?_eq_none_iff.mp hnext)
    cases hfailing : s.tracker.source.failing with
    | true => simp [hqueue]
    | false =>
      simp only [hqueue, Bool.and_false, Bool.false_eq_true, if_false, ends_bind,
        ends_onTracker, Tracker.ends_takeEvent, hnext]
      split
      · exact ends_pure
      · exact ends_expire

def checked (s : Session) (tracker : Tracker) : Session :=
  { s with tracker, checksRun := s.checksRun + 1 }

/-- The reason to stop that a check gives that was counted. -/
def ofCheck (u : Session) : Option Outcome :=
  if u.tracker.flow = .rootsExhausted then some .rootsExhausted
  else if u.options.maxChecks.any (· ≤ u.checksRun) then some .checksCompleted else none

theorem ends_onCheckDue :
    onCheckDue.Ends moment s done failed ↔
      Tracker.check.Ends moment s.tracker
        (fun _ tracker => done (ofCheck (s.checked tracker)) (s.checked tracker))
        fun fault tracker => failed fault { s with tracker } := by
  rw [onCheckDue, ends_bind, ends_onTracker]
  apply iff_of_eq
  congr 1
  funext report tracker
  have hreason : ofCheck (s.checked tracker) =
      if tracker.flow = .rootsExhausted then some .rootsExhausted
      else if s.options.maxChecks.any (· ≤ s.checksRun + 1) then some .checksCompleted else none :=
        rfl
  simp only [ends_bind, ends_change, ends_state, eq_iff_iff, hreason]
  by_cases hflow : tracker.flow = .rootsExhausted
  · simp [hflow, checked]
  · simp [hflow, checked]

theorem ends_onCommand {command : Control.Command} :
    (onCommand command).Ends moment s done failed ↔
      match command with
      | .check => Tracker.check.Ends moment s.tracker
          (fun _ tracker => done (ofFlow tracker.flow) { s with tracker })
          fun fault tracker => failed fault { s with tracker }
      | .rebuild => Tracker.rebuild.Ends moment s.tracker
          (fun _ tracker => done (ofFlow tracker.flow) { s with tracker })
          fun fault tracker => failed fault { s with tracker }
      | .dump | .lookup _ => done (ofFlow s.tracker.flow) s
      | .quit => done (some .quit) s := by
  cases command with
  | check =>
    simp only [onCommand, ends_bind, ends_onTracker, ends_stopIfExhausted]
  | rebuild => simp only [onCommand, ends_bind, ends_onTracker, ends_stopIfExhausted]
  | dump => simp only [onCommand, ends_bind, ends_state, ends_say, ends_stopIfExhausted]
  | lookup path => simp only [onCommand, ends_bind, ends_state, ends_say, ends_stopIfExhausted]
  | quit => exact ends_pure

end Endings

/-- With what came from around. -/
def supplied (s : Session) (calls : List Source.Call) : Session :=
  { s with tracker.source := s.tracker.source.outcome calls }

/-- A wake, with what came from around since the turn before it. -/
structure Turn where
  start : Session
  supply : List Source.Call
  moment : Moment
  wake : Wake

namespace Turn

def before (turn : Turn) : Session := turn.start.supplied turn.supply

def reply (turn : Turn) : Reply Session (Option Outcome) := handle turn.wake turn.moment turn.before

def after (turn : Turn) : Session := turn.reply.state

/-- Whether what wakes the session can be there. -/
def isReady (turn : Turn) : Bool :=
  match turn.wake with
  | .source => Schedule.sourceIsReady turn.before.tracker.source
  | .windowElapsed => !turn.before.tracker.departures.isEmpty
  | .checkDue => turn.before.options.checkInterval.isSome
  | .deadline => turn.before.options.duration.isSome
  | .command _ | .commandsClosed => true

/-- The event that is taken from the source, with the source that is left. -/
def taken? (turn : Turn) : Option (Event × Source) :=
  match turn.wake with
  | .source => turn.before.tracker.source.next?
  | _ => none

def event? (turn : Turn) : Option Event := turn.taken?.map (·.1)

/-- Whether a check or a command is carried out. -/
def demands (turn : Turn) : Bool :=
  match turn.wake with
  | .checkDue | .command _ => true
  | _ => false

/-- Whether a check came by itself and went well. -/
def checks (turn : Turn) : Bool :=
  turn.wake == .checkDue && (Tracker.check turn.moment turn.before.tracker).result.toBool

variable {turn : Turn} {event : Event} {source : Source}

theorem after_of_ends {P : Session → Prop}
    (h : (handle turn.wake).Ends turn.moment turn.before (fun _ u => P u) fun _ u => P u) :
    P turn.after :=
  h.state

section Trackers

theorem taken?_of_source (hwake : turn.wake = .source) :
    turn.taken? = turn.before.tracker.source.next? := by
  simp only [taken?, hwake]

theorem wake_of_taken (h : turn.taken? = some (event, source)) : turn.wake = .source := by
  unfold taken? at h
  split at h
  · assumption
  · cases h

theorem after_of_taken (h : turn.taken? = some (event, source)) :
    turn.after.tracker =
      (Tracker.handle event turn.moment { turn.before.tracker with source }).state := by
  have hwake := wake_of_taken h
  rw [taken?_of_source hwake] at h
  apply after_of_ends (P := fun u => u.tracker = _)
  rw [hwake, handle, ends_onSource, h]
  exact ends_reached

variable {R : Tracker → Tracker → Prop}

/-- What a law allows of everything but taking an event is what a turn does that takes none. -/
theorem obeys_of_not_taken (hR : MoveLaw fun t _ u => R t u) (h : turn.taken? = none) :
    R turn.before.tracker turn.after.tracker := by
  have hrest : R turn.before.tracker turn.before.tracker := hR.rest _
  have hexpired : R turn.before.tracker turn.before.tracker.expired :=
    Tracker.ends_expire.mp (hR.expire.ends turn.moment _)
  apply after_of_ends (P := fun u => R turn.before.tracker u.tracker)
  cases hwake : turn.wake with
  | source =>
    rw [taken?_of_source hwake] at h
    rw [handle, ends_onSource, h]
    simp only
    split
    · exact hrest
    · split
      · exact hrest
      · exact hexpired
  | windowElapsed => exact ends_expire.mpr hexpired
  | checkDue => exact ends_onCheckDue.mpr (hR.check.ends _ _)
  | command command =>
    apply ends_onCommand.mpr
    cases command with
    | check => exact hR.check.ends _ _
    | rebuild => exact hR.rebuild.ends _ _
    | dump => exact hrest
    | lookup path => exact hrest
    | quit => exact hrest
  | commandsClosed => exact hrest
  | deadline => exact hrest

/-- Every turn does to the tracker what a law of steps allows. -/
theorem obeys (hR : StepLaw fun t _ u => R t u) : R turn.before.tracker turn.after.tracker := by
  cases htaken : turn.taken? with
  | none => exact obeys_of_not_taken hR.toMoveLaw htaken
  | some taken =>
    rw [after_of_taken htaken]
    exact hR.trans (hR.supplied turn.before.tracker taken.2) (hR.handle taken.1 turn.moment _)

/-- In a turn the source hands out the event that is handled, and is asked things besides. -/
theorem history (turn : Turn) :
    ∃ calls, (∀ call ∈ calls, call.supplies = false) ∧
      turn.after.tracker.source = turn.before.tracker.source.outcome calls ∧
      turn.before.tracker.source.handedOut calls = turn.event?.toList ∧
      turn.after.tracker.counts.events =
        turn.before.tracker.counts.events + turn.event?.toList.length := by
  cases htaken : turn.taken? with
  | none =>
    obtain ⟨hevents, calls, hcalls, hsource⟩ := obeys_of_not_taken Tracker.moveLaw_asks htaken
    refine ⟨calls, fun call hcall => (Source.Call.of_asks (hcalls call hcall)).1, hsource, ?_, ?_⟩
    · rw [event?, htaken]
      exact Source.handedOut_eq_nil fun call hcall => (Source.Call.of_asks (hcalls call hcall)).2
    · rw [event?, htaken]
      exact hevents
  | some taken =>
    obtain ⟨event, source⟩ := taken
    have hnext : turn.before.tracker.source.next? = some (event, source) :=
      (taken?_of_source (wake_of_taken htaken)).symm.trans htaken
    obtain ⟨hhanded, hserve⟩ := Source.serve_of_next? turn.moment.tree hnext
    obtain ⟨hevents, calls, hcalls, hsource⟩ :=
      Tracker.moveLaw_asks.handle_counted event turn.moment { turn.before.tracker with source }
    rw [after_of_taken htaken, event?, htaken]
    refine ⟨⟨turn.moment.tree, .next⟩ :: calls, ?_, ?_, ?_, hevents⟩
    · intro call hcall
      rcases List.mem_cons.mp hcall with rfl | hcall
      · rfl
      · exact (Source.Call.of_asks (hcalls call hcall)).1
    · rw [hsource, ← hserve]
      rfl
    · rw [Source.handedOut_cons, hhanded,
        Source.handedOut_eq_nil fun call hcall => (Source.Call.of_asks (hcalls call hcall)).2]
      rfl

end Trackers

section Checks

theorem ends_check_checks (hwake : turn.wake = .checkDue) :
    Tracker.check.Ends turn.moment turn.before.tracker (fun _ _ => turn.checks = true)
      fun _ _ => turn.checks = false := by
  unfold Ends
  split
  · next hresult => simp [checks, hwake, hresult, Except.toBool]
  · next hresult => simp [checks, hwake, hresult, Except.toBool]

theorem wake_of_checks (h : turn.checks = true) : turn.wake = .checkDue := by
  simp only [checks, Bool.and_eq_true, beq_iff_eq] at h
  exact h.1

/-- Checks that came by themselves and went well are counted, and nothing else is. -/
theorem checksRun_after :
    turn.after.checksRun = turn.before.checksRun + (if turn.checks then 1 else 0) ∧
      turn.after.options = turn.before.options := by
  have hsame (hwake : turn.wake ≠ .checkDue) :
      turn.before.checksRun = turn.before.checksRun + (if turn.checks then 1 else 0) ∧
        turn.before.options = turn.before.options := by
    simp [checks, hwake]
  apply after_of_ends (P := fun u => u.checksRun = _ ∧ u.options = _)
  cases hwake : turn.wake with
  | source =>
    have hsame := hsame (by simp [hwake])
    apply ends_onSource.mpr
    split
    · exact .of_forall (fun _ _ => hsame) fun _ _ => hsame
    · split
      · exact hsame
      · split <;> exact hsame
  | windowElapsed => exact ends_expire.mpr (hsame (by simp [hwake]))
  | checkDue =>
    apply ends_onCheckDue.mpr
    apply (ends_check_checks hwake).mono
    · intro report tracker hchecks
      simp [hchecks, checked]
    · intro fault tracker hchecks
      simp [hchecks]
  | command command =>
    have hsame := hsame (by simp [hwake])
    apply ends_onCommand.mpr
    cases command with
    | check => exact .of_forall (fun _ _ => hsame) fun _ _ => hsame
    | rebuild => exact .of_forall (fun _ _ => hsame) fun _ _ => hsame
    | dump => exact hsame
    | lookup path => exact hsame
    | quit => exact hsame
  | commandsClosed => exact hsame (by simp [hwake])
  | deadline => exact hsame (by simp [hwake])

theorem checksRun_lt_of_ofCheck {limit : Nat} (h : ofCheck u = none)
    (hlimit : u.options.maxChecks = some limit) : u.checksRun < limit := by
  unfold ofCheck at h
  split at h
  · cases h
  · simpa [hlimit] using h

theorem checksRun_lt {limit : Nat} (hgoes : turn.reply.result = .ok none)
    (hchecks : turn.checks = true) (hlimit : turn.before.options.maxChecks = some limit) :
    turn.after.checksRun < limit := by
  have hwake := wake_of_checks hchecks
  have hends : (handle turn.wake).Ends turn.moment turn.before
      (fun outcome u => outcome = none → u.checksRun < limit) fun _ _ => True := by
    rw [hwake, handle, ends_onCheckDue]
    exact .of_forall (fun _ _ hnone => checksRun_lt_of_ofCheck hnone hlimit) fun _ _ => trivial
  exact hends.of_ok hgoes rfl

end Checks

section Reasons

/-- What has to be so for a session to stop after a wake for a reason. -/
def Warrants (wake : Wake) (u : Session) : Outcome → Prop
  | .rootsExhausted => u.tracker.roots.live = []
  | .quit => wake = .command .quit
  | .deadlineReached => wake = .deadline
  | .checksCompleted => u.tracker.roots.live ≠ [] ∧
      ∃ limit, u.options.maxChecks = some limit ∧ max limit 1 ≤ u.checksRun
  | .sourceClosed => u.tracker.source.closed = true ∧ u.tracker.source.queue = [] ∧
      u.tracker.departures.isEmpty = true

theorem ofFlow_eq_some_iff {flow : Flow} {outcome : Outcome} :
    ofFlow flow = some outcome ↔ flow = .rootsExhausted ∧ outcome = .rootsExhausted := by
  cases flow <;> simp [ofFlow, eq_comm]

theorem warrants_ofCheck {wake : Wake} {outcome : Outcome} (hcount : 1 ≤ u.checksRun)
    (h : ofCheck u = some outcome) : Warrants wake u outcome := by
  unfold ofCheck at h
  split at h
  · next hflow =>
    cases h
    exact Tracker.flow_eq_rootsExhausted_iff.mp hflow
  · next hflow =>
    split at h
    · next hlimit =>
      cases h
      refine ⟨mt Tracker.flow_eq_rootsExhausted_iff.mpr hflow, ?_⟩
      cases hmax : u.options.maxChecks with
      | none => simp [hmax] at hlimit
      | some limit => exact ⟨limit, rfl, Nat.max_le.mpr ⟨by simpa [hmax] using hlimit, hcount⟩⟩
    · cases h

theorem warrants_ofFlow (u : Session) {wake : Wake} {outcome : Outcome}
    (h : ofFlow u.tracker.flow = some outcome) : Warrants wake u outcome := by
  obtain ⟨hflow, rfl⟩ := ofFlow_eq_some_iff.mp h
  exact Tracker.flow_eq_rootsExhausted_iff.mp hflow

theorem ends_onSource_warrants (hready : Schedule.sourceIsReady s.tracker.source = true) :
    onSource.Ends moment s (fun result u => ∀ outcome, result = some outcome →
      Warrants .source u outcome)
      fun _ _ => True := by
  rw [ends_onSource]
  split
  · apply Tracker.ends_handle_flow.imp
    rintro flow tracker rfl
    exact fun _ => warrants_ofFlow { s with tracker }
  · next hnext =>
    have hqueue := Source.next?_eq_none_iff.mp hnext
    split
    · trivial
    · next hfailing =>
      split
      · next hdepartures =>
        rintro outcome ⟨⟩
        simp only [Schedule.sourceIsReady, hqueue, hfailing] at hready
        exact ⟨by simpa using hready, hqueue, hdepartures⟩
      · exact nofun

theorem ends_onCommand_warrants (command : Control.Command) :
    (onCommand command).Ends moment s
      (fun result u => ∀ outcome, result = some outcome → Warrants (.command command) u outcome)
      fun _ _ => True := by
  have hflow {tracker : Tracker} : ∀ outcome, ofFlow tracker.flow = some outcome →
      Warrants (.command command) { s with tracker } outcome :=
    fun _ => warrants_ofFlow { s with tracker }
  rw [ends_onCommand]
  cases command with
  | check => exact .of_forall (fun _ _ => hflow) fun _ _ => trivial
  | rebuild => exact .of_forall (fun _ _ => hflow) fun _ _ => trivial
  | dump => exact fun _ => warrants_ofFlow _
  | lookup path => exact fun _ => warrants_ofFlow _
  | quit =>
    rintro outcome ⟨⟩
    rfl

/-- A reason to stop is there when it is given. -/
theorem warrants (hready : turn.isReady = true) {outcome : Outcome}
    (h : turn.reply.result = .ok (some outcome)) : Warrants turn.wake turn.after outcome := by
  have hends : (handle turn.wake).Ends turn.moment turn.before
      (fun result u => ∀ outcome, result = some outcome →
        Warrants turn.wake u outcome) fun _ _ => True := by
    cases hwake : turn.wake with
    | source => exact ends_onSource_warrants (by rwa [isReady, hwake] at hready)
    | windowElapsed => exact ends_expire.mpr nofun
    | checkDue =>
      rw [handle, ends_onCheckDue]
      exact .of_forall (fun _ _ _ => warrants_ofCheck (Nat.le_add_left 1 _)) fun _ _ => trivial
    | command command => exact ends_onCommand_warrants command
    | commandsClosed => exact nofun
    | deadline =>
      rintro outcome ⟨⟩
      rfl
  exact hends.of_ok h outcome rfl

theorem ofFlow_ne_none {tracker : Tracker} (h : tracker.roots.live = []) :
    ofFlow tracker.flow ≠ none := by
  rw [Tracker.flow_eq_rootsExhausted_iff.mpr h]
  exact nofun

theorem ofCheck_ne_none (h : u.tracker.roots.live = []) : ofCheck u ≠ none := by
  rw [ofCheck, if_pos (Tracker.flow_eq_rootsExhausted_iff.mpr h)]
  exact nofun

theorem stops_of_exhausted (hlive : turn.before.tracker.roots.live = [])
    (h : turn.event?.isSome = true ∨ turn.demands = true) : turn.reply.result ≠ .ok none := by
  rw [event?, Option.isSome_map] at h
  have hgone {tracker : Tracker} (hshrinks : turn.before.tracker.roots.ShrinksTo tracker.roots) :
      ofFlow tracker.flow ≠ none := ofFlow_ne_none (hshrinks.live_eq_nil hlive)
  have hends : (handle turn.wake).Ends turn.moment turn.before (fun result _ => result ≠ none)
      fun _ _ => True := by
    cases hwake : turn.wake with
    | source =>
      rw [taken?_of_source hwake, demands, hwake] at h
      obtain ⟨⟨event, source⟩, hnext⟩ := Option.isSome_iff_exists.mp (h.resolve_right nofun)
      rw [handle, ends_onSource, hnext]
      apply (Tracker.ends_handle_flow.and ((stepLaw_shrinks.handle event).ends _ _)).mono
      · rintro flow tracker ⟨rfl, hshrinks⟩
        exact hgone hshrinks
      · exact fun _ _ _ => trivial
    | checkDue =>
      rw [handle, ends_onCheckDue]
      apply (stepLaw_shrinks.check.ends _ _).mono
      · intro report tracker hshrinks
        exact ofCheck_ne_none (hshrinks.live_eq_nil hlive)
      · exact fun _ _ _ => trivial
    | command command =>
      rw [handle, ends_onCommand]
      cases command with
      | check => exact (stepLaw_shrinks.check.ends _ _).mono (fun _ _ => hgone) fun _ _ _ => trivial
      | rebuild =>
        exact (stepLaw_shrinks.rebuild.ends _ _).mono (fun _ _ => hgone) fun _ _ _ => trivial
      | dump => exact ofFlow_ne_none hlive
      | lookup path => exact ofFlow_ne_none hlive
      | quit => exact nofun
    | windowElapsed => simp [taken?, demands, hwake] at h
    | commandsClosed => simp [taken?, demands, hwake] at h
    | deadline => simp [taken?, demands, hwake] at h
  exact fun hresult => hends.of_ok hresult rfl

end Reasons

end Turn

end Session

end TreeWatch
