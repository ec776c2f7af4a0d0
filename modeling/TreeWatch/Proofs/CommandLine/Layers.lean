import TreeWatch.CommandLine.Read
import TreeWatch.CommandLine.Settings
import TreeWatch.Proofs.Session.Progress
import TreeWatch.Proofs.Settings.Loading

/-!
# Layers of settings

The settings of a run come in three layers: what the command line gives, what the settings file
gives, and the defaults. Each key has the value of the first layer that has one for it. The file has
to be right without the command line, and the whole has to be in range; then checks that are to end
a session do come, as far as the clock can tell their times. An interval that it cannot tell is in
range nevertheless.
-/

namespace TreeWatch

namespace Settings

variable {settings : Settings}

theorem rangeError?_eq_none_iff : settings.rangeError? = none ↔
    1 ≤ settings.renameWindow ∧ settings.renameWindow ≤ longestWindow ∧
      (settings.maxChecks ≠ 0 → settings.checkInterval ≠ 0) := by
  unfold rangeError?
  split
  · next h =>
    simp only [reduceCtorEq, false_iff]
    omega
  · split
    · simp only [reduceCtorEq, false_iff]
      omega
    · simp only [true_iff]
      omega

theorem checkInterval_sessionOptions (hset : settings.checkInterval ≠ 0) :
    settings.sessionOptions.checkInterval = some (settings.checkInterval * 1000) := by
  simp [sessionOptions, checkSeconds?, unlessZero, hset]

theorem maxChecks_sessionOptions (hlimit : settings.maxChecks ≠ 0) :
    settings.sessionOptions.maxChecks = some settings.maxChecks := by
  simp [sessionOptions, checkLimit?, unlessZero, hlimit]

theorem isOnClock_begin (hset : settings.checkInterval ≠ 0) (hlimit : settings.maxChecks ≠ 0)
    (tracker : Tracker) (tree : FileTree) {clock : Nat} (happenings : List (Nat × Happening))
    (commands : List (Nat × Control.Command))
    (hlast : clock + settings.maxChecks * (settings.checkInterval * 1000) < Schedule.clockEnd)
    (hdeadline : settings.duration ≠ 0 → clock + settings.duration * 1000 < Schedule.clockEnd) :
    (Schedule.begin (.ofTracker tracker settings.sessionOptions) tree clock happenings
      commands).isOnClock = true := by
  refine Schedule.isOnClock_iff.mpr ⟨fun time htime => ?_, fun time htime => ?_⟩
  · obtain ⟨seconds, hseconds, rfl⟩ := Option.map_eq_some_iff.mp htime
    obtain ⟨hne, rfl⟩ := unlessZero_eq_some_iff.mp hseconds
    exact hdeadline hne
  · obtain rfl := Option.some.inj ((checkInterval_sessionOptions hset).symm.trans htime)
    have hle := Nat.le_mul_of_pos_left (settings.checkInterval * 1000) (Nat.pos_of_ne_zero hlimit)
    exact Nat.lt_of_le_of_lt (Nat.add_le_add_left hle clock) hlast

/-- What becomes of a session that is to stop after some checks, if the clock can tell when the last
of them is due: at every moment it has made the checks that were due by then, and it ends, with its
last check if nothing else is there that ends it. -/
theorem checks_are_made (hrange : settings.rangeError? = none) (hlimit : settings.maxChecks ≠ 0)
    (tracker : Tracker) (tree : FileTree) (clock : Nat) (happenings : List (Nat × Happening))
    (commands : List (Nat × Control.Command))
    (hlast : clock + settings.maxChecks * (settings.checkInterval * 1000) < Schedule.clockEnd)
    (hdeadline : settings.duration ≠ 0 → clock + settings.duration * 1000 < Schedule.clockEnd) :
    let interval := settings.checkInterval * 1000
    let first := Schedule.begin (.ofTracker tracker settings.sessionOptions) tree clock
      happenings commands
    0 < interval ∧
      (∀ n, (first.run n).2.1.InTime interval ∧
        (first.run n).2.1.now ≤ settings.maxChecks * interval) ∧
      ∃ enough, ∀ n, enough ≤ n →
        Schedule.Concludes settings.maxChecks interval commands (first.run n).2.1 (first.run n).1 ∧
          (first.IsUndisturbed → (first.run n).1 = .stopped .checksCompleted) := by
  intro interval first
  have hset : settings.checkInterval ≠ 0 := (rangeError?_eq_none_iff.mp hrange).2.2 hlimit
  have hway : first.IsUnderWay settings.maxChecks interval :=
    Schedule.isUnderWay_begin (checkInterval_sessionOptions hset) (maxChecks_sessionOptions hlimit)
      (Nat.pos_of_ne_zero hlimit) tree clock happenings commands
  refine ⟨by simp only [interval]; omega, ?_⟩
  by_cases hflow : tracker.flow = .rootsExhausted
  · have hrun (n : Nat) := @Schedule.run_of_exhausted first n hflow
    simp only [hrun]
    have hgone := Tracker.flow_eq_rootsExhausted_iff.mp hflow
    exact ⟨fun _ => ⟨hway.toInTime, hway.now_le⟩, 0, fun _ _ =>
      ⟨hgone, fun h => absurd hgone h.live⟩⟩
  · have hclock := isOnClock_begin hset hlimit tracker tree happenings commands hlast hdeadline
    have hrun (n : Nat) := @Schedule.run_of_isOnClock first n hflow hclock
    simp only [hrun]
    obtain ⟨enough, henough⟩ := hway.exists_conclusion
    refine ⟨fun n => (Schedule.follow_is_punctual n hway).2, enough, fun n hn => ⟨henough n hn, ?_⟩⟩
    intro hundisturbed
    refine (hundisturbed.follow hway n).resolve_left fun hunfinished => ?_
    have hconcludes := henough n hn
    rw [hunfinished] at hconcludes
    exact hconcludes

end Settings

namespace CommandLine

theorem bind_eq_ok_iff {ε α β : Type} {x : Except ε α} {f : α → Except ε β} {b : β} :
    x >>= f = .ok b ↔ ∃ a, x = .ok a ∧ f a = .ok b := by
  cases x with
  | error error => exact ⟨nofun, nofun⟩
  | ok a =>
    constructor
    · exact fun h => ⟨a, rfl, h⟩
    · rintro ⟨_, ⟨⟩, h⟩
      exact h

variable {tree : FileTree} {surroundings : Surroundings} {line : CommandLine}
  {settings file : Settings} {arguments : List Bytes}

/-- The value that a command line gives to a key. -/
def given? (line : CommandLine) : (key : Settings.Key) → Option key.Value
  | .verbosity => line.verbosity
  | .logFile => line.logFile.map some
  | .abortsOnProblem =>
    if line.abortsOnProblem then some true else if line.rebuildsOnProblem then some false else none
  | .stopFile => line.stopFile.map some
  | .overflow => line.overflow
  | .checkInterval => line.checkInterval
  | .maxChecks => line.maxChecks
  | .duration => line.duration
  | .renameWindow => line.renameWindow

theorem get_overlay (line : CommandLine) (file : Settings) (key : Settings.Key) :
    (line.overlay file).get key = (line.given? key).getD (file.get key) := by
  have hpath (given held : Option Path) : given.or held = (given.map some).getD held := by
    cases given <;> rfl
  cases key with
  | logFile | stopFile => exact hpath _ _
  | abortsOnProblem =>
    have hflags (aborts rebuilds held : Bool) : (aborts || (!rebuilds && held)) =
        (if aborts then some true else if rebuilds then some false else none).getD held := by
      cases aborts <;> cases rebuilds <;> rfl
    exact hflags _ _ _
  | _ => rfl

def settingsFile? (line : CommandLine) (surroundings : Surroundings) : Option Path :=
  line.config.or surroundings.settingsPath?

/-- The settings below those of the command line: what the file says of them, or the defaults. -/
def AreBelow (line : CommandLine) (tree : FileTree) (surroundings : Surroundings)
    (file : Settings) : Prop :=
  match line.settingsFile? surroundings with
  | some path => Settings.AreInFile tree path file
  | none => file = .default

theorem fileSettings_eq_ok_iff : fileSettings tree surroundings line = .ok file ↔
    line.AreBelow tree surroundings file ∧ file.rangeError? = none := by
  have hdefault : (.ok .default : Except SettingsError Settings) = .ok file ↔
      file = .default ∧ file.rangeError? = none := by
    constructor
    · rintro ⟨⟩
      exact ⟨rfl, by decide⟩
    · rintro ⟨rfl, -⟩
      rfl
  unfold fileSettings AreBelow settingsFile?
  cases line.config with
  | some path => exact Settings.load_eq_ok_iff
  | none =>
    unfold Settings.loadUsual
    rw [Option.none_or]
    cases surroundings.settingsPath? with
    | some path => exact Settings.load_eq_ok_iff
    | none => exact hdefault

/-- Settings are what the command line makes of the file exactly if each key has the value of the
first layer that has one. -/
theorem eq_overlay_iff : settings = line.overlay file ↔
    ∀ key, settings.get key = (line.given? key).getD (file.get key) := by
  simp only [← get_overlay]
  exact ⟨fun h key => h ▸ rfl, Settings.eq_of_get⟩

theorem settings_eq_ok_iff : line.settings tree surroundings = .ok settings ↔
    ∃ file, line.AreBelow tree surroundings file ∧ file.rangeError? = none ∧
      settings.rangeError? = none ∧
      ∀ key, settings.get key = (line.given? key).getD (file.get key) := by
  unfold CommandLine.settings
  rw [bind_eq_ok_iff]
  refine exists_congr fun file => ?_
  rw [fileSettings_eq_ok_iff, and_assoc, ← eq_overlay_iff]
  refine and_congr_right fun _ => and_congr_right fun _ => ?_
  cases hrange : (line.overlay file).rangeError? with
  | some error =>
    simp only [reduceCtorEq, false_iff, not_and]
    rintro hnone rfl
    exact absurd (hrange.symm.trans hnone) (by simp)
  | none =>
    constructor
    · rintro ⟨⟩
      exact ⟨hrange, rfl⟩
    · rintro ⟨-, rfl⟩
      rfl

theorem not_both_of_read (h : read arguments = .ok line) :
    ¬ (line.rebuildsOnProblem = true ∧ line.abortsOnProblem = true) := by
  obtain ⟨reading, -, hfinish⟩ := bind_eq_ok_iff.mp h
  obtain ⟨resolved, -, hline⟩ := bind_eq_ok_iff.mp hfinish
  intro hboth
  simp only at hline
  split at hline
  · cases hline
  · next hneither =>
    split at hline
    · cases hline
    · cases hline
      exact hneither (Bool.and_eq_true_iff.mpr hboth)

/-- The settings of an accepted command line come in layers: each key has the value that the command
line gives it, or else the file, or else the default, if the file is right by itself and the whole
is in range, and else there are none. So the window is in its bounds; and a session that is to stop
after some checks makes each of them when it is due, and ends with the last unless something else
ends it before, if the clock can tell when the session is to end. -/
theorem settings_are_layered (hread : read arguments = .ok line) (tree : FileTree)
    (surroundings : Surroundings) :
    ¬ (line.rebuildsOnProblem = true ∧ line.abortsOnProblem = true) ∧
    (∀ settings, line.settings tree surroundings = .ok settings ↔
      ∃ file, line.AreBelow tree surroundings file ∧ file.rangeError? = none ∧
        settings.rangeError? = none ∧
        ∀ key, settings.get key = (line.given? key).getD (file.get key)) ∧
    ∀ settings, line.settings tree surroundings = .ok settings →
      (1 ≤ settings.renameWindow ∧ settings.renameWindow ≤ 10000) ∧
      (settings.maxChecks ≠ 0 → ∀ tracker tree clock happenings commands,
        clock + settings.maxChecks * (settings.checkInterval * 1000) < Schedule.clockEnd →
        (settings.duration ≠ 0 → clock + settings.duration * 1000 < Schedule.clockEnd) →
        let interval := settings.checkInterval * 1000
        let first := Schedule.begin (.ofTracker tracker settings.sessionOptions) tree clock
          happenings commands
        0 < interval ∧
          (∀ n, (first.run n).2.1.InTime interval ∧
            (first.run n).2.1.now ≤ settings.maxChecks * interval) ∧
          ∃ enough, ∀ n, enough ≤ n →
            Schedule.Concludes settings.maxChecks interval commands (first.run n).2.1
              (first.run n).1 ∧
              (first.IsUndisturbed → (first.run n).1 = .stopped .checksCompleted)) := by
  refine ⟨not_both_of_read hread, fun _ => settings_eq_ok_iff, fun settings hsettings => ?_⟩
  obtain ⟨file, -, -, hrange, -⟩ := settings_eq_ok_iff.mp hsettings
  obtain ⟨hlow, hhigh, -⟩ := Settings.rangeError?_eq_none_iff.mp hrange
  exact ⟨⟨hlow, hhigh⟩, Settings.checks_are_made hrange⟩

/-- The arguments `--config=c -x r`, with a file that gives an interval, a limit and a key that
means nothing. A session with these settings below a single root, left alone, stops with its ninth
check after nine minutes. -/
theorem settings_are_layered_of_flag_and_file :
    let text := "check_interval_secs = 60\nmax_checks = 9\ncolor = 1\n".toList
    let tree := FileTree.empty.put [[99]] (.file (Utf8.encode text) 0o644)
    let line : CommandLine :=
      { empty with roots := [⟨[114]⟩], config := some ⟨[99]⟩, rebuildsOnProblem := true }
    let settings : Settings :=
      { Settings.default with abortsOnProblem := false, checkInterval := 60, maxChecks := 9 }
    let watched : FileTree := ⟨[([[114]], .directory 1)], 2⟩
    let roots : Roots := ⟨[some ⟨FileTree.pathOf [[114]], 1⟩], 0⟩
    let tracker := (Tracker.start ⟨watched, 0⟩ (.ofRoots .empty roots settings.policy)).state
    let first := Schedule.begin (.ofTracker tracker settings.sessionOptions) watched 7 [] []
    read (["--config=c", "-x", "r"].map Bytes.ofString) = .ok line ∧
      line.settings tree ⟨none, none⟩ = .ok settings ∧
      ∃ enough, ∀ n, enough ≤ n → (first.run n).1 = .stopped .checksCompleted ∧
        (first.run n).2.1.session.checksRun = 9 ∧ (first.run n).2.1.now = 9 * (60 * 1000) := by
  intro text tree line settings watched roots tracker first
  let file : Settings := { Settings.default with checkInterval := 60, maxChecks := 9 }
  have hread : read (["--config=c", "-x", "r"].map Bytes.ofString) = .ok line := by decide +kernel
  have hwrite : FileTree.empty.writeFile ⟨[99]⟩ (Utf8.encode text) 0o644 = .ok tree := rfl
  have hfile : Settings.ofDocument? "check_interval_secs = 60\nmax_checks = 9\ncolor = 1\n".toList =
      some file :=
    Settings.ofDocument?_eq_some_iff.mpr
      ⟨Toml.contentsOf [("check_interval_secs".toList, .integer 60),
        ("max_checks".toList, .integer 9), ("color".toList, .integer 1)], by decide +kernel,
      Settings.ofContents?_eq_some_iff.mp (by decide)⟩
  have hbelow : line.AreBelow tree ⟨none, none⟩ file := Settings.areInFile_of_writeFile hwrite hfile
  obtain ⟨-, hlayers, hrun⟩ := settings_are_layered hread tree ⟨none, none⟩
  have hsettings : line.settings tree ⟨none, none⟩ = .ok settings :=
    (hlayers settings).mpr ⟨file, hbelow, by decide, by decide, fun key => by cases key <;> rfl⟩
  have hundisturbed : first.IsUndisturbed :=
    ⟨rfl, rfl, rfl, by decide +kernel, by decide +kernel, by decide +kernel, by decide +kernel⟩
  obtain ⟨-, hmakes⟩ := hrun settings hsettings
  obtain ⟨-, -, enough, henough⟩ :=
    hmakes (by decide) tracker watched 7 [] [] (by decide) (by decide)
  refine ⟨hread, hsettings, enough, fun n hn => ?_⟩
  have hends := henough n hn
  generalize first.run n = ended at hends ⊢
  obtain ⟨hconcludes, hcompletes⟩ := hends
  have hfinish := hcompletes hundisturbed
  rw [hfinish] at hconcludes
  exact ⟨hfinish, hconcludes⟩

/-- The arguments `--check-interval=18446744073709551615 --max-checks=1 r`. They are accepted, yet a
session with these settings is lost before its first check, for the clock cannot tell when that is
due. -/
theorem interval_past_the_clock :
    let line : CommandLine :=
      { empty with
        roots := [⟨[114]⟩]
        checkInterval := some 18446744073709551615
        maxChecks := some 1 }
    let settings : Settings :=
      { Settings.default with checkInterval := 18446744073709551615, maxChecks := 1 }
    let watched : FileTree := ⟨[([[114]], .directory 1)], 2⟩
    let roots : Roots := ⟨[some ⟨FileTree.pathOf [[114]], 1⟩], 0⟩
    let tracker := (Tracker.start ⟨watched, 0⟩ (.ofRoots .empty roots settings.policy)).state
    let first := Schedule.begin (.ofTracker tracker settings.sessionOptions) watched 0 [] []
    read (["--check-interval=18446744073709551615", "--max-checks=1", "r"].map Bytes.ofString) =
      .ok line ∧ line.settings .empty ⟨none, none⟩ = .ok settings ∧ tracker.roots.live ≠ [] ∧
      ∀ n, (first.run n).1 = .pastClock ∧ (first.run n).2.1.session.checksRun = 0 := by
  intro line settings watched roots tracker first
  have hlive : tracker.roots.live ≠ [] := by decide +kernel
  have hflow : tracker.flow ≠ .rootsExhausted := mt Tracker.flow_eq_rootsExhausted_iff.mp hlive
  have hclock : first.isOnClock = false := by decide +kernel
  refine ⟨by decide +kernel, rfl, hlive, fun n => ?_⟩
  have hrun : first.run n = (.pastClock, first, []) := Schedule.run_of_not_isOnClock n hflow hclock
  exact ⟨congrArg (·.1) hrun, congrArg (·.2.1.session.checksRun) hrun⟩

end CommandLine

end TreeWatch
