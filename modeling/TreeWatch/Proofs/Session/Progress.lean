import TreeWatch.Proofs.Session.Punctuality
import TreeWatch.Proofs.Tracker.Auditing
import TreeWatch.Proofs.Tracker.Outstanding

/-!
# Sessions that are to stop after some checks do stop

With every advance a session with a limit to its checks comes closer to its end: something that was
going to happen has happened, or a command or a check is done, or there is less left to handle, or
the time has come closer to the last check. So every such session ends after finitely many advances,
and it ends with its last check unless something else ends it before.
-/

namespace TreeWatch

/-- Whatever comes from the source or ends a wait leaves less to handle, if the session goes on. -/
theorem Session.Turn.outstanding_lt {turn : Turn} (hready : turn.isReady = true)
    (hwake : turn.wake = .source ∨ turn.wake = .windowElapsed)
    (hgoes : turn.reply.result = .ok none) :
    turn.after.tracker.outstanding < turn.before.tracker.outstanding := by
  cases htaken : turn.taken? with
  | some taken =>
    obtain ⟨event, source⟩ := taken
    have hsource := wake_of_taken htaken
    rw [taken?_of_source hsource] at htaken
    rw [after_of_taken ((taken?_of_source hsource).trans htaken)]
    exact Tracker.outstanding_handle_lt htaken turn.moment
  | none =>
    have hends : (handle turn.wake).Ends turn.moment turn.before
        (fun outcome u => outcome = none →
          u.tracker.outstanding < turn.before.tracker.outstanding) fun _ _ => True := by
      rcases hwake with hwake | hwake
      · rw [taken?_of_source hwake] at htaken
        rw [hwake, handle, ends_onSource, htaken]
        simp only
        split
        · trivial
        · split
          · exact fun hnone => absurd hnone (Option.some_ne_none _)
          · next hwaits => exact fun _ => Tracker.outstanding_expired_lt (by simpa using hwaits)
      · rw [isReady, hwake] at hready
        rw [hwake, handle, ends_expire]
        exact fun _ => Tracker.outstanding_expired_lt (by simpa using hready)
    exact hends.of_ok hgoes rfl

namespace Schedule

open Session (Turn)

variable {schedule next : Schedule} {interval limit : Nat} {turn : Turn} {finish : Finish}

section Ahead

/-- What is ahead of a session until its last check. -/
def ahead (limit interval : Nat) (schedule : Schedule) : ℕ ×ₗ (ℕ ×ₗ ℕ ×ₗ ℕ) ×ₗ ℕ :=
  toLex (schedule.happenings.length + schedule.commands.length +
    (limit - schedule.session.checksRun), toLex (schedule.session.tracker.outstanding,
      limit * interval - schedule.now))

theorem letHappen_shorter_or_eq (now : Nat) (happenings : List (Nat × Happening)) (tree : FileTree)
    (source : Source) : (letHappen now happenings tree source).1.length < happenings.length ∨
      letHappen now happenings tree source = (happenings, tree, source) := by
  fun_induction letHappen now happenings tree source <;> grind

theorem ahead_settled_le (limit interval : Nat) (schedule : Schedule) :
    schedule.settled.ahead limit interval ≤ schedule.ahead limit interval := by
  obtain hshorter | hsame := letHappen_shorter_or_eq schedule.now schedule.happenings schedule.tree
    schedule.session.tracker.source
  · refine le_of_lt (Prod.Lex.toLex_lt_toLex.mpr (.inl ?_))
    exact Nat.add_lt_add_right (Nat.add_lt_add_right hshorter _) _
  · refine le_of_eq ?_
    simp only [ahead, settled, hsame]

theorem ahead_passing_lt {time : Nat} (hlater : schedule.now < time)
    (hlast : time ≤ limit * interval) :
    { schedule with now := time }.ahead limit interval < schedule.ahead limit interval := by
  have hless : limit * interval - time < limit * interval - schedule.now := by omega
  exact Prod.Lex.toLex_lt_toLex.mpr (.inr ⟨rfl, Prod.Lex.toLex_lt_toLex.mpr (.inr ⟨rfl, hless⟩)⟩)

/-- A turn after which the session goes on brings it closer to its last check. -/
theorem ahead_turn_lt (h : schedule.IsUnderWay limit interval)
    (hbefore : turn.before = schedule.session) (htaken : TakesUp schedule turn.wake next)
    (hready : turn.isReady = true) (hgoes : turn.reply.result = .ok none) :
    { next with session := turn.after }.ahead limit interval < schedule.ahead limit interval := by
  obtain ⟨hcount, -⟩ := turn.checksRun_after
  rw [hbefore] at hcount
  have hless (hwake : turn.wake = .source ∨ turn.wake = .windowElapsed) :
      { schedule with session := turn.after }.ahead limit interval <
      schedule.ahead limit interval := by
    have hchecks : ¬ turn.checks = true := fun hchecks => by
      simp [turn.wake_of_checks hchecks] at hwake
    rw [if_neg hchecks, Nat.add_zero] at hcount
    have hleft := hbefore ▸ turn.outstanding_lt hready hwake hgoes
    refine Prod.Lex.toLex_lt_toLex.mpr (.inr ⟨?_, Prod.Lex.toLex_lt_toLex.mpr (.inl hleft)⟩)
    simp only [hcount]
  have hremains := h.remains
  generalize hwake : turn.wake = wake at htaken
  cases htaken with
  | source => exact hless (.inl hwake)
  | window => exact hless (.inr hwake)
  | command hcommands =>
    refine Prod.Lex.toLex_lt_toLex.mpr (.inl ?_)
    simp only [hcount, hcommands, List.length_cons]
    omega
  | check =>
    rw [if_pos (turn.checks_of_goesOn hwake hgoes)] at hcount
    refine Prod.Lex.toLex_lt_toLex.mpr (.inl ?_)
    simp only [hcount]
    omega
  | deadline =>
    rw [Turn.reply, hwake] at hgoes
    cases hgoes

end Ahead

section Conclusion

/-- Why a session ends that is to make checks: they are done, or something else was there that ends
it. -/
def Concludes (limit interval : Nat) (commands : List (Nat × Control.Command)) (ended : Schedule) :
    Finish → Prop
  | .stopped .checksCompleted => ended.session.checksRun = limit ∧ ended.now = limit * interval
  | .stopped .rootsExhausted => ended.session.tracker.roots.live = []
  | .stopped .quit => ∃ due, due ≤ ended.now ∧ (due, .quit) ∈ commands
  | .stopped .deadlineReached => ended.session.options.duration = some ended.now
  | .stopped .sourceClosed => ended.session.tracker.source.closed = true ∧
      ended.session.tracker.source.queue = [] ∧ ended.session.tracker.departures.isEmpty = true
  | .failed fault => ∃ turn : Turn, turn.isReady = true ∧ turn.moment = ⟨ended.tree, ended.now⟩ ∧
      turn.after = ended.session ∧ turn.reply.result = .error fault
  | .pastClock | .asleep | .unfinished => False

theorem Concludes.mono {commands more : List (Nat × Control.Command)} (hmore : commands ⊆ more)
    (h : Concludes limit interval commands schedule finish) :
    Concludes limit interval more schedule finish := by
  cases finish with
  | stopped outcome =>
    cases outcome with
    | quit =>
      obtain ⟨due, hdue, hquit⟩ := h
      exact ⟨due, hdue, hmore hquit⟩
    | _ => exact h
  | _ => exact h

section Turns

variable (h : schedule.IsUnderWay limit interval) (hbefore : turn.before = schedule.session)
  (htaken : TakesUp schedule turn.wake next)

include h hbefore htaken

theorem eq_limit_of_checksCompleted {most : Nat} (hmost : turn.after.options.maxChecks = some most)
    (hle : most ≤ turn.after.checksRun) :
    turn.after.checksRun = limit ∧ next.now = limit * interval := by
  obtain ⟨hcount, hoptions⟩ := turn.checksRun_after
  rw [hbefore] at hcount hoptions
  obtain rfl : limit = most := by simpa [hoptions, h.limited] using hmost
  have hremains := h.remains
  have hchecks : turn.checks = true := by
    by_contra hnot
    rw [if_neg hnot] at hcount
    omega
  rw [if_pos hchecks] at hcount
  rw [turn.wake_of_checks hchecks] at htaken
  obtain ⟨-, -, hnow, -, -⟩ := htaken.eq
  have hlast : turn.after.checksRun = limit := by omega
  refine ⟨hlast, ?_⟩
  rw [hnow, ← hlast, hcount, ← h.now_eq_of_isDue htaken.isDue_of_check]

theorem duration_of_deadline (hwake : turn.wake = .deadline) :
    turn.after.options.duration = some next.now := by
  obtain ⟨-, hoptions⟩ := turn.checksRun_after
  rw [hbefore] at hoptions
  rw [hwake] at htaken
  cases htaken with
  | deadline hdue =>
    obtain ⟨time, htime⟩ := Option.isSome_iff_exists.mp (isSome_of_isDue hdue)
    have hreached : time ≤ schedule.now := by simpa [isDue, htime] using hdue
    have hduration := h.deadline.symm.trans htime
    rw [Nat.le_antisymm hreached (h.beforeDeadline time hduration)] at hduration
    exact (congrArg _ hoptions).trans hduration

/-- A turn that ends a session has a reason to. -/
theorem concludes_of_turn (hmoment : turn.moment = ⟨next.tree, next.now⟩)
    (hready : turn.isReady = true) (hfinish : finish? turn.reply.result = some finish) :
    Concludes limit interval schedule.commands { next with session := turn.after } finish := by
  cases hresult : turn.reply.result with
  | error fault =>
    rw [hresult] at hfinish
    cases hfinish
    exact ⟨turn, hready, hmoment, rfl, hresult⟩
  | ok outcome =>
    cases outcome with
    | none => simp [finish?, hresult] at hfinish
    | some outcome =>
      rw [hresult] at hfinish
      cases hfinish
      have hwarrants := turn.warrants hready hresult
      cases outcome with
      | checksCompleted =>
        obtain ⟨-, most, hmost, hle⟩ := hwarrants
        have hlast := eq_limit_of_checksCompleted h hbefore htaken hmost (le_of_max_le_left hle)
        exact hlast
      | rootsExhausted => exact hwarrants
      | sourceClosed => exact hwarrants
      | quit =>
        rw [show turn.wake = .command .quit from hwarrants] at htaken
        cases htaken with
        | command hcommands hdue => exact ⟨_, hdue, hcommands ▸ List.mem_cons_self⟩
      | deadlineReached =>
        have hduration := duration_of_deadline h hbefore htaken hwarrants
        exact hduration

end Turns

/-- An advance brings a session closer to its end, or ends it for a reason. -/
theorem IsUnderWay.proceeds (h : schedule.IsUnderWay limit interval) :
    schedule.advance.2.1.commands ⊆ schedule.commands ∧
      (schedule.advance.1 = none →
        schedule.advance.2.1.ahead limit interval < schedule.ahead limit interval) ∧
      ∀ finish, schedule.advance.1 = some finish →
        Concludes limit interval schedule.commands schedule.advance.2.1 finish := by
  have hsettled := ahead_settled_le limit interval schedule
  obtain ⟨time, hlater, hpassed, hadvance⟩ |
    ⟨turn, next, hbefore, hmoment, hready, htaken, hfinish, hafter⟩ := h.advance_cases
  · rw [hadvance]
    have hless := ahead_passing_lt hlater hpassed.now_le
    exact ⟨List.Subset.refl _, fun _ => lt_of_lt_of_le hless hsettled, nofun⟩
  · rw [hfinish, hafter]
    refine ⟨htaken.commands_subset, fun hnone => ?_, fun finish hsome => ?_⟩
    · have hless := ahead_turn_lt h.settled hbefore htaken hready (finish?_eq_none hnone)
      exact lt_of_lt_of_le hless hsettled
    · have hconcludes := concludes_of_turn h.settled hbefore htaken hmoment hready hsome
      exact hconcludes

/-- A session under way ends, if it is followed far enough, and not without a reason. -/
theorem IsUnderWay.exists_conclusion (h : schedule.IsUnderWay limit interval) :
    ∃ enough, ∀ n, enough ≤ n →
      Concludes limit interval schedule.commands (follow n schedule).2.1 (follow n schedule).1 := by
  induction hahead : schedule.ahead limit interval using WellFoundedLT.induction
    generalizing schedule with
  | ind ahead ih =>
    obtain ⟨hcommands, hless, hconcludes⟩ := h.proceeds
    cases hfinish : schedule.advance.1 with
    | some finish =>
      refine ⟨1, fun n hn => ?_⟩
      obtain ⟨n, rfl⟩ := Nat.exists_eq_add_of_le' hn
      obtain ⟨hend, hlast⟩ := @follow_of_some _ n _ hfinish
      rw [hend, hlast]
      exact hconcludes finish hfinish
    | none =>
      obtain ⟨enough, henough⟩ := ih _ (hahead ▸ hless hfinish) (h.advance.2.2.2 hfinish) rfl
      refine ⟨enough + 1, fun n hn => ?_⟩
      obtain ⟨n, rfl⟩ := Nat.exists_eq_add_of_le' (Nat.le_of_add_left_le hn)
      obtain ⟨hend, hlast⟩ := @follow_of_none _ n hfinish
      rw [hend, hlast]
      exact (henough n (Nat.le_of_succ_le_succ hn)).mono hcommands

end Conclusion

section Undisturbed

/-- Nothing goes on around a session but the time, and an audit has nothing to say. -/
structure IsUndisturbed (schedule : Schedule) : Prop where
  happenings : schedule.happenings = []
  commands : schedule.commands = []
  deadline : schedule.deadline = none
  source : sourceIsReady schedule.session.tracker.source = false
  departures : schedule.session.tracker.departures.isEmpty = true
  live : schedule.session.tracker.roots.live ≠ []
  sound : (Audit.run schedule.tree schedule.session.tracker.table).notDirectories = []

theorem IsUndisturbed.settled (h : schedule.IsUndisturbed) : schedule.settled.IsUndisturbed := by
  have hsame : schedule.settled = schedule := by
    simp only [Schedule.settled, h.happenings, letHappen]
    rw [← h.happenings]
  rwa [hsame]

theorem IsUndisturbed.check (h : schedule.IsUndisturbed) (hbefore : turn.before = schedule.session)
    (htree : turn.moment.tree = schedule.tree) (hwake : turn.wake = .checkDue) :
    turn.after.tracker = schedule.session.tracker ∧
      (turn.reply.result = .ok none ∨ turn.reply.result = .ok (some .checksCompleted)) := by
  have hcheck := @Tracker.check_of_sound turn.moment schedule.session.tracker
    (by rw [htree]; exact h.sound)
  have hflow : schedule.session.tracker.flow ≠ .rootsExhausted :=
    mt Tracker.flow_eq_rootsExhausted_iff.mp h.live
  have hends : (Session.handle turn.wake).Ends turn.moment turn.before
      (fun outcome u => u.tracker = schedule.session.tracker ∧
        (outcome = none ∨ outcome = some .checksCompleted)) fun _ _ => False := by
    rw [hwake, Session.handle, Session.ends_onCheckDue, hbefore]
    simp only [Action.Ends, hcheck, Session.ofCheck, Session.checked, if_neg hflow, true_and]
    split
    · exact .inr rfl
    · exact .inl rfl
  obtain ⟨outcome, hresult, htracker, hreason⟩ := hends.exists_ok
  refine ⟨htracker, hreason.imp ?_ ?_⟩ <;> rintro rfl <;> exact hresult

theorem IsUndisturbed.advance (h : schedule.IsUndisturbed)
    (hway : schedule.IsUnderWay limit interval) :
    schedule.advance.2.1.IsUndisturbed ∧
      ∀ finish, schedule.advance.1 = some finish → finish = .stopped .checksCompleted := by
  have h := h.settled
  obtain ⟨time, -, -, hadvance⟩ | ⟨turn, next, hbefore, hmoment, -, htaken, hfinish, hafter⟩ :=
    hway.advance_cases
  · rw [hadvance]
    exact ⟨⟨h.happenings, h.commands, h.deadline, h.source, h.departures, h.live, h.sound⟩, nofun⟩
  · rw [hfinish, hafter]
    obtain ⟨-, htree, -, hhappenings, hdeadline⟩ := htaken.eq
    have hcheck (hwake : turn.wake = .checkDue) := h.check hbefore (by rw [hmoment, htree]) hwake
    have hcommands := htaken.commands_subset
    generalize hwake : turn.wake = wake at htaken
    cases htaken with
    | source hready => exact absurd hready (by simp [h.source])
    | command hsome => exact absurd hsome (by simp [h.commands])
    | window hdue => exact absurd h.departures (by simp [TakesUp.waits hdue])
    | deadline hdue => exact absurd (isSome_of_isDue hdue) (by simp [h.deadline])
    | check =>
      obtain ⟨htracker, hresult⟩ := hcheck hwake
      constructor
      · exact ⟨h.happenings, h.commands, h.deadline, htracker ▸ h.source, htracker ▸ h.departures,
          htracker ▸ h.live, htracker ▸ h.sound⟩
      · rintro finish hsome
        rcases hresult with hresult | hresult <;> rw [hresult] at hsome <;> cases hsome
        rfl

/-- An undisturbed session makes all its checks. -/
theorem IsUndisturbed.follow (h : schedule.IsUndisturbed)
    (hway : schedule.IsUnderWay limit interval) (n : Nat) : (follow n schedule).1 = .unfinished ∨
      (follow n schedule).1 = .stopped .checksCompleted := by
  induction n generalizing schedule with
  | zero => exact .inl rfl
  | succ n ih =>
    obtain ⟨hstays, hends⟩ := h.advance hway
    cases hfinish : schedule.advance.1 with
    | none =>
      rw [(@follow_of_none _ n hfinish).1]
      exact ih hstays (hway.advance.2.2.2 hfinish)
    | some finish =>
      rw [(@follow_of_some _ n _ hfinish).1]
      exact .inr (hends finish hfinish)

end Undisturbed

end Schedule

end TreeWatch
