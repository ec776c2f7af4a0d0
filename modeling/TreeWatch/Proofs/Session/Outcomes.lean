import TreeWatch.Proofs.Session.Turns
import TreeWatch.Settings.Basic

/-!
# How sessions end

A session takes turns for as long as none gives it a reason to stop and none fails. Over such a row
of turns, whatever the order in which wakes come: the events that the source hands out are those
that are handled, checks are counted and limited, the session stops only for a reason that is there,
and it does not outlive its last root by more than one event, check or command.
-/

namespace TreeWatch

theorem Settings.unlessZero_eq_some_iff {n m : Nat} : unlessZero n = some m ↔ n ≠ 0 ∧ n = m := by
  unfold unlessZero
  split <;> simp_all

theorem Settings.one_le_limit {settings : Settings} {limit : Nat}
    (h : settings.sessionOptions.maxChecks = some limit) : 1 ≤ limit := by
  obtain ⟨hne, rfl⟩ := unlessZero_eq_some_iff.mp h
  exact Nat.one_le_iff_ne_zero.mpr hne

namespace Session

open TreeWatch.Action

/-- The turns of a session from one state to another. A turn comes after another only if the session
goes on. -/
inductive Run : Session → List Turn → Session → Prop
  | nil (s : Session) : Run s [] s
  | cons {turn : Turn} {turns : List Turn} {u : Session}
      (hsupply : ∀ call ∈ turn.supply, call.supplies = true) (hready : turn.isReady = true)
      (hgoes : turns ≠ [] → turn.reply.result = .ok none) (h : Run turn.after turns u) :
      Run turn.start (turn :: turns) u

/-- How a session ends with a turn, if it does. -/
def Turn.result? (turn : Turn) : Option (Except Fault Outcome) :=
  match turn.reply.result with
  | .ok none => none
  | .ok (some outcome) => some (.ok outcome)
  | .error fault => some (.error fault)

/-- How a session ends after its turns, if it does: at once if no root is live when it begins. -/
def result? (s : Session) (turns : List Turn) : Option (Except Fault Outcome) :=
  match turns.getLast? with
  | none => if s.tracker.flow = .rootsExhausted then some (.ok .rootsExhausted) else none
  | some turn => turn.result?

variable {s u : Session} {turn : Turn} {turns earlier later : List Turn}

namespace Run

theorem split (h : Run s (earlier ++ later) u) : ∃ v, Run s earlier v ∧ Run v later u := by
  induction earlier generalizing s with
  | nil => exact ⟨s, .nil s, h⟩
  | cons turn rest ih =>
    cases h with
    | cons hsupply hready hgoes hrest =>
      obtain ⟨v, hfirst, hlast⟩ := ih hrest
      refine ⟨v, .cons hsupply hready ?_ hfirst, hlast⟩
      exact fun hne => hgoes (List.append_ne_nil_of_left_ne_nil hne later)

theorem eq_of_nil (h : Run s [] u) : u = s := by
  cases h
  rfl

theorem start_eq (h : Run s (turn :: later) u) : turn.start = s := by
  cases h
  rfl

theorem goesOn (h : Run s (turn :: later) u) (hlater : later ≠ []) :
    turn.reply.result = .ok none := by
  cases h with
  | cons _ _ hgoes _ => exact hgoes hlater

/-- What the source hands out over a row of turns is what is handled, in that order. -/
theorem history (h : Run s turns u) :
    ∃ calls, u.tracker.source = s.tracker.source.outcome calls ∧
      calls.filter Source.Call.supplies = turns.flatMap Turn.supply ∧
      s.tracker.source.handedOut calls = turns.filterMap Turn.event? ∧
      u.tracker.counts.events = s.tracker.counts.events + (turns.filterMap Turn.event?).length := by
  induction h with
  | nil s => exact ⟨[], rfl, rfl, rfl, rfl⟩
  | @cons turn turns u hsupply _ _ _ ih =>
    obtain ⟨calls, hcalls, hsource, hhanded, hevents⟩ := turn.history
    obtain ⟨more, hsource', hsupplied, hhanded', hevents'⟩ := ih
    have hbefore : turn.before.tracker.source = turn.start.tracker.source.outcome turn.supply := rfl
    have hafter : turn.after.tracker.source =
        turn.start.tracker.source.outcome (turn.supply ++ calls) := by
      rw [hsource, hbefore, Source.outcome_append]
    have htaken :
        (turn :: turns).filterMap Turn.event? = turn.event?.toList ++
        turns.filterMap Turn.event? := by
      cases hevent : turn.event? <;> simp [hevent]
    rw [htaken]
    refine ⟨turn.supply ++ calls ++ more, ?_, ?_, ?_, ?_⟩
    · rw [hsource', hafter, ← Source.outcome_append]
    · rw [List.filter_append, List.filter_append, List.filter_eq_self.mpr hsupply,
        List.filter_eq_nil_iff.mpr (by simpa using hcalls), hsupplied, List.append_nil,
        List.flatMap_cons]
    · rw [Source.handedOut_append, ← hafter, hhanded', Source.handedOut_append, ← hbefore, hhanded,
        Source.handedOut_eq_nil fun call hcall =>
        Source.Call.ne_next_of_supplies (hsupply call hcall), List.nil_append]
    · rw [hevents', hevents, List.length_append, Nat.add_assoc]
      rfl

theorem checksRun (h : Run s turns u) :
    u.checksRun = s.checksRun + turns.countP Turn.checks ∧ u.options = s.options := by
  induction h with
  | nil s => exact ⟨rfl, rfl⟩
  | @cons turn turns u _ _ _ _ ih =>
    obtain ⟨hchecks, hoptions⟩ := turn.checksRun_after
    constructor
    · have hbefore : turn.before.checksRun = turn.start.checksRun := rfl
      rw [ih.1, hchecks, hbefore, List.countP_cons]
      omega
    · exact ih.2.trans hoptions

/-- A session that has had no more checks than it may have has no more later on: none or one if the
limit is none. -/
theorem checksRun_le (h : Run s turns u) {limit : Nat} (hlimit : s.options.maxChecks = some limit)
    (hfirst : s.checksRun < max limit 1) : u.checksRun ≤ max limit 1 := by
  induction h with
  | nil s => exact Nat.le_of_lt hfirst
  | @cons turn turns u _ _ hgoes h ih =>
    obtain ⟨hchecks, hoptions⟩ := turn.checksRun_after
    have hbefore : turn.before.checksRun = turn.start.checksRun := rfl
    by_cases hlast : turns = []
    · subst hlast
      rw [h.eq_of_nil]
      split at hchecks <;> omega
    · apply ih (hoptions ▸ hlimit)
      by_cases hcheck : turn.checks = true
      · have hlt := turn.checksRun_lt (hgoes hlast) hcheck hlimit
        omega
      · rw [if_neg hcheck] at hchecks
        omega

/-- Once no root is live, no more than one event, check or command is left. -/
theorem last_of_exhausted (h : Run s turns u) (hlive : s.tracker.roots.live = []) :
    (turns.filterMap Turn.event?).length + turns.countP Turn.demands ≤ 1 := by
  induction h with
  | nil s => exact Nat.zero_le 1
  | @cons turn turns u _ _ hgoes h ih =>
    have hbefore : turn.before.tracker.roots.live = [] := hlive
    by_cases hdoes : turn.event?.isSome = true ∨ turn.demands = true
    · have hlast : turns = [] := by
        by_contra hne
        exact turn.stops_of_exhausted hbefore hdoes (hgoes hne)
      subst hlast
      cases hevent : turn.event? with
      | none =>
        rw [List.filterMap_cons_none hevent, List.filterMap_nil, List.length_nil, Nat.zero_add]
        exact List.countP_le_length
      | some event =>
        obtain ⟨taken, htaken, -⟩ := Option.map_eq_some_iff.mp hevent
        have hquiet : turn.demands = false := by
          rw [Turn.demands, Turn.wake_of_taken htaken]
        rw [List.countP_cons_of_neg (by simp [hquiet]), List.countP_nil, Nat.add_zero]
        exact List.length_filterMap_le _ _
    · obtain ⟨hnone, hquiet⟩ := not_or.mp hdoes
      have hevent : turn.event? = none := by simpa using hnone
      rw [List.filterMap_cons_none hevent, List.countP_cons_of_neg hquiet]
      exact ih ((turn.obeys Tracker.stepLaw_shrinks).live_eq_nil hbefore)

theorem last (h : Run s (earlier ++ [turn]) u) : turn.isReady = true ∧ turn.after = u := by
  obtain ⟨v, -, hlast⟩ := h.split
  cases hlast with
  | cons _ hready _ hrest => exact ⟨hready, hrest.eq_of_nil.symm⟩

end Run

theorem Turn.result?_eq_ok {outcome : Outcome} (h : turn.result? = some (.ok outcome)) :
    turn.reply.result = .ok (some outcome) := by
  unfold Turn.result? at h
  split at h
  · cases h
  · next hresult =>
    cases h
    exact hresult
  · cases h

theorem result?_eq_ok {outcome : Outcome} (h : result? s turns = some (.ok outcome)) :
    turns = [] ∧ s.tracker.flow = .rootsExhausted ∧ outcome = .rootsExhausted ∨
      ∃ earlier turn, turns = earlier ++ [turn] ∧ turn.reply.result = .ok (some outcome) := by
  unfold result? at h
  cases hlast : turns.getLast? with
  | none =>
    rw [hlast] at h
    simp only [Option.ite_none_right_eq_some, Option.some.injEq, Except.ok.injEq] at h
    exact .inl ⟨List.getLast?_eq_none_iff.mp hlast, h.1, h.2.symm⟩
  | some turn =>
    obtain ⟨earlier, rfl⟩ := List.getLast?_eq_some_iff.mp hlast
    rw [hlast] at h
    exact .inr ⟨earlier, turn, rfl, turn.result?_eq_ok h⟩

/-- However its wakes follow each other, over the turns of a session: each event that the source
hands out is handled once, in order; the checks that came by themselves and went well are counted,
and stay within the limit if there is one; the session stops only for a reason that is there; and
once no root is live, an event, a check or a command is the last thing that it does. -/
theorem outcomes_are_sound {tracker : Tracker} {options : SessionOptions}
    (h : Run (ofTracker tracker options) turns u) :
    ((∀ turn ∈ turns, ∀ event source, turn.taken? = some (event, source) → turn.after.tracker =
        (Tracker.handle event turn.moment { turn.before.tracker with source }).state) ∧
      u.tracker.source.received =
        tracker.source.received + (turns.filterMap Turn.event?).length ∧
      u.tracker.counts.events = tracker.counts.events + (turns.filterMap Turn.event?).length ∧
      ∃ calls, u.tracker.source = tracker.source.outcome calls ∧
        calls.filter Source.Call.supplies = turns.flatMap Turn.supply ∧
        tracker.source.handedOut calls = turns.filterMap Turn.event? ∧
        tracker.source.queue ++ Source.along Source.arriving tracker.source calls =
          (Source.along Source.leaving tracker.source calls).map (·.1) ++ u.tracker.source.queue) ∧
    (u.checksRun = turns.countP Turn.checks ∧
      ∀ limit, options.maxChecks = some limit → 1 ≤ limit → u.checksRun ≤ limit) ∧
    (∀ outcome, result? (ofTracker tracker options) turns = some (.ok outcome) →
      match outcome with
      | .checksCompleted => u.tracker.roots.live ≠ [] ∧
          ∃ limit, options.maxChecks = some limit ∧ u.checksRun = max limit 1 ∧
            ∀ settings : Settings, options = settings.sessionOptions → u.checksRun = limit
      | .sourceClosed => u.tracker.source.closed = true ∧ u.tracker.source.queue = [] ∧
          u.tracker.departures.isEmpty = true
      | .rootsExhausted => u.tracker.roots.live = []
      | .quit => ∃ turn, turns.getLast? = some turn ∧ turn.wake = .command .quit
      | .deadlineReached => ∃ turn, turns.getLast? = some turn ∧ turn.wake = .deadline) ∧
    ∀ earlier turn later, turns = earlier ++ turn :: later → turn.start.tracker.roots.live = [] →
      ((turn :: later).filterMap Turn.event?).length + (turn :: later).countP Turn.demands ≤ 1 ∧
        (turn.event?.isSome = true ∨ turn.demands = true →
          turn.reply.result ≠ .ok none ∧ later = []) := by
  obtain ⟨calls, hsource, hsupplied, hhanded, hevents⟩ := h.history
  obtain ⟨hchecks, hoptions⟩ := h.checksRun
  have hlimit : ∀ limit, options.maxChecks = some limit → u.checksRun ≤ max limit 1 :=
    fun limit hmax =>
    h.checksRun_le hmax (Nat.lt_of_lt_of_le Nat.zero_lt_one (Nat.le_max_right limit 1))
  refine ⟨⟨fun turn _ event source => turn.after_of_taken, ?_, hevents, calls, hsource,
    hsupplied, hhanded, ?_⟩, ⟨?_, ?_⟩, ?_, ?_⟩
  · rw [hsource, Source.received_outcome]
    exact congrArg (tracker.source.received + List.length ·) hhanded
  · rw [hsource]
    exact Source.queue_outcome tracker.source calls
  · rw [hchecks]
    exact Nat.zero_add _
  · intro limit hmax hpos
    have hle := hlimit limit hmax
    omega
  · intro outcome hresult
    obtain ⟨rfl, hflow, rfl⟩ | ⟨earlier, turn, rfl, hreply⟩ := result?_eq_ok hresult
    · rw [h.eq_of_nil]
      exact Tracker.flow_eq_rootsExhausted_iff.mp hflow
    · obtain ⟨hready, rfl⟩ := h.last
      have hlast : (earlier ++ [turn]).getLast? = some turn := List.getLast?_concat
      have hwarrants := turn.warrants hready hreply
      cases outcome with
      | checksCompleted =>
        obtain ⟨hlive, limit, hmax, hle⟩ := hwarrants
        rw [hoptions] at hmax
        have hcount : turn.after.checksRun = max limit 1 := Nat.le_antisymm (hlimit limit hmax) hle
        refine ⟨hlive, limit, hmax, hcount, ?_⟩
        rintro settings rfl
        exact hcount.trans (Nat.max_eq_left (Settings.one_le_limit hmax))
      | sourceClosed => exact hwarrants
      | rootsExhausted => exact hwarrants
      | quit => exact ⟨turn, hlast, hwarrants⟩
      | deadlineReached => exact ⟨turn, hlast, hwarrants⟩
  · rintro earlier turn later rfl hlive
    obtain ⟨v, -, hrest⟩ := h.split
    obtain rfl := hrest.start_eq
    refine ⟨hrest.last_of_exhausted hlive, fun hdoes => ?_⟩
    have hstops := turn.stops_of_exhausted hlive hdoes
    exact ⟨hstops, by_contra fun hlater => hstops (hrest.goesOn hlater)⟩

section Playing

def turnsOf (s : Session) : List (List Source.Call × Moment × Wake) → List Turn
  | [] => []
  | (supply, moment, wake) :: rest =>
    ⟨s, supply, moment, wake⟩ :: turnsOf (Turn.mk s supply moment wake).after rest

def outcome (s : Session) (wakes : List (List Source.Call × Moment × Wake)) : Session :=
  wakes.foldl (fun s wake => (Turn.mk s wake.1 wake.2.1 wake.2.2).after) s

/-- Whether turns can be taken: what they need is there, and the session goes on to the last. -/
def areOpen : List Turn → Bool
  | [] => true
  | turn :: rest =>
    turn.supply.all Source.Call.supplies && turn.isReady &&
      (rest.isEmpty || turn.reply.result = .ok none) && areOpen rest

theorem run_turns {wakes : List (List Source.Call × Moment × Wake)}
    (h : areOpen (turnsOf s wakes) = true) :
    Run s (turnsOf s wakes) (outcome s wakes) := by
  induction wakes generalizing s with
  | nil => exact .nil s
  | cons wake rest ih =>
    obtain ⟨supply, moment, wake⟩ := wake
    simp only [turnsOf, areOpen, Bool.and_eq_true, List.all_eq_true, Bool.or_eq_true,
      List.isEmpty_iff, decide_eq_true_eq] at h
    obtain ⟨⟨⟨hsupply, hready⟩, hgoes⟩, hrest⟩ := h
    exact @Run.cons ⟨s, supply, moment, wake⟩ _ _ hsupply hready hgoes.resolve_left (ih hrest)

/-- A check on command, one that is due, and the deletion of the only root: one check counts, and
the one event is handled and the last thing. -/
theorem outcomes_are_sound_of_deletion :
    let tree : FileTree := ⟨[([[114]], .directory 1)], 2⟩
    let roots : Roots := ⟨[some ⟨FileTree.pathOf [[114]], 1⟩], 0⟩
    let tracker := (Tracker.start ⟨tree, 0⟩ (.ofRoots .empty roots ⟨false, .rescan⟩)).state
    let s := ofTracker tracker ⟨50, some 10, some 2, none⟩
    let wakes : List (List Source.Call × Moment × Wake) :=
      [([], ⟨tree, 5⟩, .command .check), ([], ⟨tree, 10⟩, .checkDue),
        ([⟨.empty, .push (.onWatch ⟨1⟩ .deleteSelf)⟩], ⟨.empty, 15⟩, .source)]
    let u := outcome s wakes
    result? s (turnsOf s wakes) = some (.ok .rootsExhausted) ∧ u.tracker.roots.live = [] ∧
      u.checksRun = 1 ∧ u.checksRun ≤ 2 ∧
      (turnsOf s wakes).filterMap Turn.event? = [.onWatch ⟨1⟩ .deleteSelf] ∧
      u.tracker.source.received = 1 ∧ u.tracker.counts.events = 1 := by
  intro tree roots tracker s wakes u
  have hrun : Run s (turnsOf s wakes) u := run_turns (by decide +kernel)
  have hresult : result? s (turnsOf s wakes) = some (.ok .rootsExhausted) := by decide +kernel
  have hevents : (turnsOf s wakes).filterMap Turn.event? = [.onWatch ⟨1⟩ .deleteSelf] := by
    decide +kernel
  have hchecked : (turnsOf s wakes).countP Turn.checks = 1 := by decide +kernel
  have hfirst : tracker.source.received = 0 ∧ tracker.counts.events = 0 := by decide +kernel
  obtain ⟨⟨-, hreceived, hhandled, -⟩, ⟨hchecks, hlimit⟩, hreason, -⟩ := outcomes_are_sound hrun
  rw [hevents, hfirst.1] at hreceived
  rw [hevents, hfirst.2] at hhandled
  exact ⟨hresult, hreason .rootsExhausted hresult, hchecks.trans hchecked,
    hlimit 2 rfl (by decide), hevents, hreceived, hhandled⟩

/-- A limit of none is not kept: the first check is made, is one more than the limit, and ends the
session. Settings have no such limit, where zero stands for no limit. -/
theorem limit_of_none_is_passed :
    let tree : FileTree := ⟨[([[114]], .directory 1)], 2⟩
    let roots : Roots := ⟨[some ⟨FileTree.pathOf [[114]], 1⟩], 0⟩
    let tracker := (Tracker.start ⟨tree, 0⟩ (.ofRoots .empty roots ⟨false, .rescan⟩)).state
    let s := ofTracker tracker ⟨50, some 10, some 0, none⟩
    let wakes : List (List Source.Call × Moment × Wake) := [([], ⟨tree, 10⟩, .checkDue)]
    Run s (turnsOf s wakes) (outcome s wakes) ∧
      result? s (turnsOf s wakes) = some (.ok .checksCompleted) ∧ s.options.maxChecks = some 0 ∧
      (outcome s wakes).checksRun = 1 := by
  intro tree roots tracker s wakes
  exact ⟨run_turns (by decide +kernel), by decide +kernel, rfl, by decide +kernel⟩

end Playing

end Session

end TreeWatch
