import TreeWatch.Proofs.Session.Schedules

/-!
# Checks that come in time

A session that has an interval between checks never sleeps for good, and time does not pass over a
check that is due. So at any moment of a run the checks that were due by then were made, and with a
limit to the checks the run does not go on after the last of them was due.
-/

namespace TreeWatch

theorem Session.Turn.checks_of_goesOn {turn : Turn} (hwake : turn.wake = .checkDue)
    (hgoes : turn.reply.result = .ok none) : turn.checks = true := by
  have hends : (handle turn.wake).Ends turn.moment turn.before (fun _ _ => turn.checks = true)
      fun _ _ => True := by
    rw [hwake, handle, ends_onCheckDue]
    exact (ends_check_checks hwake).mono (fun _ _ h => h) fun _ _ _ => trivial
  exact hends.of_ok hgoes

namespace Schedule

open Session (Turn)

variable {schedule next : Schedule} {interval limit time : Nat} {turn : Turn}

/-- Time has not passed over the next check, nor over the deadline, and the last check was not
early. -/
structure InTime (interval : Nat) (schedule : Schedule) : Prop where
  reached : schedule.session.checksRun * interval ≤ schedule.now
  notPassed : schedule.now ≤ (schedule.session.checksRun + 1) * interval
  beforeDeadline : ∀ time, schedule.session.options.duration = some time → schedule.now ≤ time

/-- The session makes checks, at an interval and up to a limit, and the last of them is still to
come. -/
structure IsUnderWay (limit interval : Nat) (schedule : Schedule) : Prop extends
    schedule.InTime interval where
  regular : schedule.session.options.checkInterval = some interval
  limited : schedule.session.options.maxChecks = some limit
  remains : schedule.session.checksRun < limit
  due : schedule.nextCheck = some ((schedule.session.checksRun + 1) * interval)
  deadline : schedule.deadline = schedule.session.options.duration

theorem isUnderWay_begin {tracker : Tracker} {options : SessionOptions}
    (hinterval : options.checkInterval = some interval) (hlimit : options.maxChecks = some limit)
    (hpos : 0 < limit) (tree : FileTree) (clock : Nat) (happenings : List (Nat × Happening))
    (commands : List (Nat × Control.Command)) :
    (begin (.ofTracker tracker options) tree clock happenings commands).IsUnderWay limit
      interval where
  reached := Nat.le_of_eq (Nat.zero_mul interval)
  notPassed := Nat.zero_le _
  beforeDeadline _ _ := Nat.zero_le _
  regular := hinterval
  limited := hlimit
  remains := hpos
  due := hinterval.trans (congrArg some (Nat.one_mul interval).symm)
  deadline := rfl

section Passing

theorem nextTime?_le {due : Nat} (h : schedule.nextTime? = some time)
    (hdue : schedule.nextCheck = some due ∨ schedule.deadline = some due) : time ≤ due := by
  refine (List.min?_eq_some_iff.mp h).2 due (List.mem_filterMap.mpr ⟨some due, ?_, rfl⟩)
  rcases hdue with hdue | hdue <;> simp [← hdue]

theorem exists_nextTime {due : Nat} (h : schedule.nextCheck = some due) :
    ∃ time, schedule.nextTime? = some time := by
  cases htime : schedule.nextTime? with
  | none =>
    have hnone := List.filterMap_eq_nil_iff.mp (List.min?_eq_none_iff.mp htime) schedule.nextCheck
      (by simp)
    exact absurd (h.symm.trans hnone) (by simp)
  | some time => exact ⟨time, rfl⟩

theorem not_due_of_no_wake (h : schedule.wake? = none) :
    (sourceIsReady schedule.session.tracker.source = false ∧
      ∀ due ∈ schedule.commands.head?.map (·.1), schedule.now < due) ∧
    schedule.isDue schedule.windowEnd? = false ∧ schedule.isDue schedule.nextCheck = false ∧
      schedule.isDue schedule.deadline = false := by
  have htimer (h : wake?.timer schedule = none) : schedule.isDue schedule.windowEnd? = false ∧
      schedule.isDue schedule.nextCheck = false ∧ schedule.isDue schedule.deadline = false := by
    unfold wake?.timer at h
    split at h
    · cases h
    · split at h
      · cases h
      · split at h
        · cases h
        · simp_all
  unfold wake? at h
  split at h
  · cases h
  · next hready =>
    split at h
    · next hcommands =>
      split at h
      · cases h
      · next hdue => exact ⟨⟨by simpa using hready, by simpa [hcommands] using hdue⟩, htimer h⟩
    · next hcommands => exact ⟨⟨by simpa using hready, by simp [hcommands]⟩, htimer h⟩

theorem head_of_letHappen (now : Nat) (happenings : List (Nat × Happening)) (tree : FileTree)
    (source : Source) : sourceIsReady (letHappen now happenings tree source).2.2 = true ∨
      ∀ due ∈ (letHappen now happenings tree source).1.head?.map (·.1), now < due := by
  fun_induction letHappen now happenings tree source <;> simp_all

theorem lt_nextTime (hwake : schedule.settled.wake? = none)
    (h : schedule.settled.nextTime? = some time) : schedule.now < time := by
  obtain ⟨⟨hready, hcommand⟩, hwindow, hcheck, hdeadline⟩ := not_due_of_no_wake hwake
  have hhappening := (head_of_letHappen schedule.now schedule.happenings schedule.tree
    schedule.session.tracker.source).resolve_left (Bool.eq_false_iff.mp hready)
  have hlater {due : Option Nat} (hdue : schedule.settled.isDue due = false)
    (hsome : due = some time) :
      schedule.now < time := by
    rw [hsome] at hdue
    exact Nat.lt_of_not_le (of_decide_eq_false hdue)
  obtain ⟨moment, hmoment, rfl⟩ := List.mem_filterMap.mp (List.min?_mem h)
  simp only [List.mem_cons, List.not_mem_nil, or_false] at hmoment
  rcases hmoment with hmoment | hmoment | hmoment | hmoment | hmoment
  · exact hlater hwindow hmoment.symm
  · exact hlater hcheck hmoment.symm
  · exact hlater hdeadline hmoment.symm
  · exact hhappening time hmoment.symm
  · exact hcommand time hmoment.symm

end Passing

namespace IsUnderWay

theorem settled (h : schedule.IsUnderWay limit interval) :
    schedule.settled.IsUnderWay limit interval :=
  ⟨⟨h.reached, h.notPassed, h.beforeDeadline⟩, h.regular, h.limited, h.remains, h.due, h.deadline⟩

theorem isTimed (h : schedule.IsUnderWay limit interval) : schedule.IsTimed :=
  ⟨fun _ => by rw [h.regular]; rfl, fun hsome => h.deadline ▸ hsome⟩

theorem now_le (h : schedule.IsUnderWay limit interval) : schedule.now ≤ limit * interval :=
  Nat.le_trans h.notPassed (Nat.mul_le_mul_right interval h.remains)

theorem of_passing (h : schedule.IsUnderWay limit interval) (hnext : schedule.nextTime? = some time)
    (hlater : schedule.now ≤ time) : { schedule with now := time }.IsUnderWay limit interval where
  reached := Nat.le_trans h.reached hlater
  notPassed := nextTime?_le hnext (.inl h.due)
  beforeDeadline _ hdeadline := nextTime?_le hnext (.inr (h.deadline.trans hdeadline))
  regular := h.regular
  limited := h.limited
  remains := h.remains
  due := h.due
  deadline := h.deadline

theorem now_eq_of_isDue (h : schedule.IsUnderWay limit interval)
    (hdue : schedule.isDue schedule.nextCheck = true) :
    schedule.now = (schedule.session.checksRun + 1) * interval := by
  rw [h.due] at hdue
  exact Nat.le_antisymm h.notPassed (by simpa [isDue] using hdue)

/-- A turn leaves the session in time: either it made no check, or it made the one that was due. -/
theorem inTime_of_turn (h : schedule.IsUnderWay limit interval)
    (hbefore : turn.before = schedule.session) (htaken : TakesUp schedule turn.wake next) :
    InTime interval { next with session := turn.after } := by
  obtain ⟨hcount, hoptions⟩ := turn.checksRun_after
  rw [hbefore] at hcount hoptions
  obtain ⟨-, -, hnow, -, -⟩ := htaken.eq
  have hdeadline : ∀ time, turn.after.options.duration = some time → next.now ≤ time := by
    rw [hnow, hoptions]
    exact h.beforeDeadline
  cases hchecks : turn.checks with
  | false =>
    rw [hchecks, if_neg Bool.false_ne_true, Nat.add_zero] at hcount
    exact ⟨hcount ▸ hnow ▸ h.reached, hcount ▸ hnow ▸ h.notPassed, hdeadline⟩
  | true =>
    rw [turn.wake_of_checks hchecks] at htaken
    have hreached := h.now_eq_of_isDue htaken.isDue_of_check
    rw [hchecks, if_pos rfl] at hcount
    refine ⟨?_, ?_, hdeadline⟩
    · exact Nat.le_of_eq (by rw [hcount, hnow, hreached])
    · rw [hcount, hnow, hreached]
      exact Nat.mul_le_mul_right interval (Nat.le_succ _)

theorem of_turn (h : schedule.IsUnderWay limit interval) (hbefore : turn.before = schedule.session)
    (htaken : TakesUp schedule turn.wake next) (hgoes : turn.reply.result = .ok none) :
    { next with session := turn.after }.IsUnderWay limit interval := by
  obtain ⟨hcount, hoptions⟩ := turn.checksRun_after
  rw [hbefore] at hcount hoptions
  have hremains : turn.after.checksRun < limit := by
    by_cases hchecks : turn.checks = true
    · exact turn.checksRun_lt hgoes hchecks (hbefore ▸ h.limited)
    · rw [hcount, if_neg hchecks]
      exact h.remains
  have hdue : next.nextCheck = some ((turn.after.checksRun + 1) * interval) := by
    by_cases hwake : turn.wake = .checkDue
    · have hchecks := turn.checks_of_goesOn hwake hgoes
      rw [hwake] at htaken
      rw [htaken.nextCheck_of_check, h.regular, h.now_eq_of_isDue htaken.isDue_of_check, hcount,
        if_pos hchecks, Nat.succ_mul (schedule.session.checksRun + 1)]
      rfl
    · have hchecks : ¬ turn.checks = true := fun hchecks => hwake (turn.wake_of_checks hchecks)
      rw [htaken.nextCheck_of_ne hwake, h.due, hcount, if_neg hchecks]
  exact ⟨h.inTime_of_turn hbefore htaken, hoptions ▸ h.regular, hoptions ▸ h.limited,
    hremains, hdue, htaken.eq.2.2.2.2.trans (h.deadline.trans (congrArg _ hoptions.symm))⟩

/-- An advance lets time pass, but not over the next check, or it is a turn of the session. -/
theorem advance_cases (h : schedule.IsUnderWay limit interval) :
    (∃ time, schedule.settled.now < time ∧
      { schedule.settled with now := time }.IsUnderWay limit interval ∧
      schedule.advance = (none, { schedule.settled with now := time }, [])) ∨
    ∃ (turn : Turn) (next : Schedule), turn.before = schedule.settled.session ∧
      turn.moment = ⟨next.tree, next.now⟩ ∧ turn.isReady = true ∧
      TakesUp schedule.settled turn.wake next ∧ schedule.advance.1 = finish? turn.reply.result ∧
      schedule.advance.2.1 = { next with session := turn.after } := by
  cases hwake : schedule.settled.wake? with
  | none =>
    obtain ⟨time, hnext⟩ := exists_nextTime h.settled.due
    have hlater : schedule.settled.now < time := @lt_nextTime schedule time hwake hnext
    have hpassed := h.settled.of_passing hnext (Nat.le_of_lt hlater)
    exact .inl ⟨time, hlater, hpassed, advance_of_passing hwake hnext⟩
  | some found =>
    obtain ⟨wake, next⟩ := found
    have htaken := takesUp_of_wake? hwake
    let turn : Turn := ⟨next.session, [], ⟨next.tree, next.now⟩, wake⟩
    have hsupplied : schedule.settled.session = next.session.supplied [] := htaken.eq.1.symm
    have hready : turn.isReady = true := htaken.isReady h.settled.isTimed hsupplied _
    refine .inr ⟨turn, next, hsupplied.symm, rfl, hready, htaken, ?_, ?_⟩
    · rw [advance_of_wake hwake]
      rfl
    · rw [advance_of_wake hwake]
      rfl

/-- Whether or not the session ends with an advance, it is in time and not past its last check; and
if it does not, it is still under way. -/
theorem advance (h : schedule.IsUnderWay limit interval) :
    schedule.advance.1 ≠ some .asleep ∧ schedule.advance.2.1.InTime interval ∧
      schedule.advance.2.1.now ≤ limit * interval ∧
      (schedule.advance.1 = none → schedule.advance.2.1.IsUnderWay limit interval) := by
  obtain ⟨time, -, hpassed, hadvance⟩ | ⟨turn, next, hbefore, -, -, htaken, hfinish, hafter⟩ :=
    h.advance_cases
  · rw [hadvance]
    exact ⟨nofun, hpassed.toInTime, hpassed.now_le, fun _ => hpassed⟩
  · rw [hfinish, hafter]
    refine ⟨finish?_ne_asleep, h.settled.inTime_of_turn hbefore htaken, ?_, fun hnone => ?_⟩
    · exact htaken.eq.2.2.1 ▸ h.settled.now_le
    · exact h.settled.of_turn hbefore htaken (finish?_eq_none hnone)

end IsUnderWay

/-- However far a session is followed that is under way, it has made the checks that were due by
then and no others, and it has not outlasted its last check. -/
theorem follow_is_punctual (n : Nat) (h : schedule.IsUnderWay limit interval) :
    (follow n schedule).1 ≠ .asleep ∧ (follow n schedule).2.1.InTime interval ∧
      (follow n schedule).2.1.now ≤ limit * interval := by
  induction n generalizing schedule with
  | zero => exact ⟨nofun, h.toInTime, h.now_le⟩
  | succ n ih =>
    obtain ⟨hawake, hinTime, hnow, hgoes⟩ := h.advance
    cases hfinish : schedule.advance.1 with
    | none =>
      obtain ⟨hend, hlast⟩ := @follow_of_none _ n hfinish
      rw [hend, hlast]
      exact ih (hgoes hfinish)
    | some finish =>
      obtain ⟨hend, hlast⟩ := @follow_of_some _ n _ hfinish
      rw [hend, hlast]
      exact ⟨fun hasleep => hawake (hasleep ▸ hfinish), hinTime, hnow⟩

end Schedule

end TreeWatch
