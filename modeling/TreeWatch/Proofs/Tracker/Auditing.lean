import TreeWatch.Proofs.Tracker.Failures
import TreeWatch.Proofs.WatchTable.Duplicates

/-!
# Audits of the table

An audit tells the entries of a table apart by what their paths lead to: nowhere, to something other
than a directory, or to a directory; a link at the end counts as itself. Only those of the second
kind matter to a check, which fails for them or rebuilds the table, as the policy says.
-/

namespace TreeWatch

open FileTree

namespace Audit

variable {tree : FileTree} {path : Path}

/-- What an audit reports of a table in a file tree. -/
structure Classifies (tree : FileTree) (table : WatchTable) (report : Report) : Prop where
  checked : report.checked = table.size
  /-- Listed in slot order are the entries whose path leads to something other than a directory. -/
  listed : ∃ slots : List Nat, slots.Pairwise (· < ·) ∧
    report.notDirectories = slots.filterMap table.get? ∧
    ∀ slot, slot ∈ slots ↔ ∃ entry object, table.get? slot = some entry ∧
      tree.inspect entry.path = .ok object ∧ object.isDirectory = false
  /-- Missing are those whose path leads nowhere, for whatever reason. -/
  missing : report.missing = table.entries.countP fun entry => !(tree.inspect entry.path).toBool
  /-- All others are for directories. -/
  remaining : report.checked = report.missing + report.notDirectories.length +
    table.entries.countP fun entry => tree.isDirectory entry.path
  shared : report.shared.length = table.heldTwice.card

theorem find_eq_otherObject_iff : find tree path = .otherObject ↔
    ∃ object, tree.inspect path = .ok object ∧ object.isDirectory = false := by
  unfold find
  cases tree.inspect path with
  | error error => simp
  | ok object => cases hobject : object.isDirectory <;> simp [hobject]

theorem notDirectories_eq (tree : FileTree) (table : WatchTable) : (run tree table).notDirectories =
    table.entries.filter fun entry => find tree entry.path = .otherObject := by
  rw [← WatchTable.map_active]
  rfl

theorem missing_eq (tree : FileTree) (table : WatchTable) : (run tree table).missing =
    table.entries.countP fun entry => !(tree.inspect entry.path).toBool := by
  rw [List.countP_eq_length_filter, ← WatchTable.map_active]
  refine congrArg List.length (List.filter_congr fun entry _ => ?_)
  unfold find
  cases tree.inspect entry.path with
  | error error => rfl
  | ok object =>
    cases hobject : object.isDirectory <;> simp [hobject, Finding.isNothing, Except.toBool]

theorem finding_cases (tree : FileTree) (path : Path) :
    (if !(tree.inspect path).toBool then 1 else 0) +
    (if find tree path = .otherObject then 1 else 0) +
      (if tree.isDirectory path then 1 else 0) = 1 := by
  unfold find isDirectory
  cases tree.inspect path with
  | error error => rfl
  | ok object => cases hobject : object.isDirectory <;> simp [Except.toBool, hobject]

theorem length_eq_sum (tree : FileTree) (entries : List Entry) : entries.length =
    (entries.countP fun entry => !(tree.inspect entry.path).toBool) +
      (entries.filter fun entry => find tree entry.path = .otherObject).length +
      entries.countP fun entry => tree.isDirectory entry.path := by
  induction entries with
  | nil => rfl
  | cons entry rest ih =>
    have hentry := finding_cases tree entry.path
    rw [← List.countP_eq_length_filter] at ih ⊢
    simp only [List.length_cons, List.countP_cons, decide_eq_true_eq]
    omega

theorem run_classifies (tree : FileTree) (table : WatchTable) :
    Classifies tree table (run tree table) where
  checked := List.length_map _
  listed := by
    let other := fun item : Nat × Entry => decide (find tree item.2.path = .otherObject)
    refine ⟨(table.active.filter other).map (·.1), ?_, ?_, fun slot => ?_⟩
    · exact (WatchTable.pairwise_active table).sublist (List.filter_sublist.map _)
    · have hget : ∀ item ∈ table.active.filter other, (table.get? ∘ (·.1)) item = some item.2 :=
        fun item hitem => WatchTable.mem_active_iff.mp (List.mem_filter.mp hitem).1
      rw [List.filterMap_map, List.filterMap_eq_map_iff_forall_eq_some.mpr hget]
      exact List.filter_map
    · constructor
      · intro hslot
        obtain ⟨⟨_, entry⟩, hitem, rfl⟩ := List.mem_map.mp hslot
        obtain ⟨hactive, hother⟩ := List.mem_filter.mp hitem
        obtain ⟨object, found⟩ := find_eq_otherObject_iff.mp (of_decide_eq_true hother)
        exact ⟨entry, object, WatchTable.mem_active_iff.mp hactive, found⟩
      · rintro ⟨entry, object, hget, found⟩
        have hother := decide_eq_true (find_eq_otherObject_iff.mpr ⟨object, found⟩)
        exact List.mem_map_of_mem (List.mem_filter.mpr ⟨WatchTable.mem_active_iff.mpr hget, hother⟩)
  missing := missing_eq tree table
  remaining := by
    rw [missing_eq, notDirectories_eq, ← length_eq_sum, ← WatchTable.map_active]
    rfl
  shared := WatchTable.length_sharedPaths table

end Audit

namespace Tracker

open TreeWatch.Action

variable {moment : Moment} {t : Tracker}

theorem check_of_sound (h : (Audit.run moment.tree t.table).notDirectories = []) :
    check moment t =
      ⟨.ok (Audit.run moment.tree t.table), t, Audit.lines moment.tree t.table⟩ := by
  simp [check, bind_apply, Audit.Report.distrust?, h]

theorem check_of_aborting (h : (Audit.run moment.tree t.table).notDirectories ≠ [])
    (hpolicy : t.policy.abortsOnProblem = true) :
    check moment t = ⟨.error (.diverged
      (.notDirectories (Audit.run moment.tree t.table).notDirectories)), t,
      Audit.lines moment.tree t.table⟩ := by
  simp [check, bind_apply, Audit.Report.distrust?, h, resolveDistrust, hpolicy]

theorem check_of_rebuilding (h : (Audit.run moment.tree t.table).notDirectories ≠ [])
    (hpolicy : t.policy.abortsOnProblem = false) :
    (check moment t).result = (rebuild moment t).result.map (fun _ =>
      Audit.run moment.tree t.table) ∧
      (check moment t).state = (rebuild moment t).state := by
  cases hrebuild : rebuild moment t with
  | mk result u log =>
    cases result <;>
      simp [check, bind_apply, Audit.Report.distrust?, h, resolveDistrust, hpolicy, hrebuild,
        Except.map]

theorem rebuild_ne_diverged (why : Distrust) :
    (rebuild moment t).result ≠ .error (.diverged why) := by
  have hends : rebuild.Ends moment t (fun _ _ => True) fun fault _ => fault ≠ .diverged why := by
    rw [ends_rebuild]
    split
    · simp
    · refine (gathering_cover t.wiped fun _ _ _ => suits_true).mono (fun _ _ _ => trivial) ?_
      rintro _ u hstalled rfl
      exact not_isFinal_of_stalled hstalled (.inl ⟨why, rfl⟩)
  exact fun hresult => hends.of_error hresult rfl

/-- What checking a tracker comes to, given what an audit of its table finds. -/
structure Checked (moment : Moment) (t : Tracker) (found : Audit.Report)
    (reply : Reply Tracker Audit.Report) :
    Prop where
  reported : ∀ report, reply.result = .ok report → report = found
  diverges : ∀ why, reply.result = .error (.diverged why) ↔ found.notDirectories ≠ [] ∧
    t.policy.abortsOnProblem = true ∧ why = .notDirectories found.notDirectories
  passes : found.notDirectories = [] → reply.result = .ok found
  intact : found.notDirectories = [] ∨ t.policy.abortsOnProblem = true → reply.state = t
  rebuilds : found.notDirectories ≠ [] → t.policy.abortsOnProblem = false →
    reply.result = (rebuild moment t).result.map (fun _ => found) ∧
      reply.state = (rebuild moment t).state

theorem checked (moment : Moment) (t : Tracker) :
    Checked moment t (Audit.run moment.tree t.table) (check moment t) := by
  by_cases hsound : (Audit.run moment.tree t.table).notDirectories = []
  · rw [check_of_sound hsound]
    exact ⟨fun _ hresult => (Except.ok.inj hresult).symm, by simp [hsound], fun _ => rfl,
      fun _ => rfl,
      fun hfound => absurd hsound hfound⟩
  · cases hpolicy : t.policy.abortsOnProblem with
    | true =>
      rw [check_of_aborting hsound hpolicy]
      exact ⟨by simp, fun why => by simp [hsound, hpolicy, eq_comm],
        fun hfound => absurd hfound hsound,
        fun _ => rfl, fun _ hrebuilds => absurd (hpolicy.symm.trans hrebuilds) (by simp)⟩
    | false =>
      obtain ⟨hresult, hstate⟩ := check_of_rebuilding hsound hpolicy
      have hintact : ¬ ((Audit.run moment.tree t.table).notDirectories = [] ∨
          t.policy.abortsOnProblem = true) := by
        simp [hsound, hpolicy]
      refine ⟨fun report hreport => ?_, fun why => ?_, fun hfound => absurd hfound hsound,
        fun hfound => absurd hfound hintact, fun _ _ => ⟨hresult, hstate⟩⟩
      · rw [hresult] at hreport
        cases hrebuild : (rebuild moment t).result with
        | error fault => simp [hrebuild, Except.map] at hreport
        | ok watched => exact (Except.ok.inj (hrebuild ▸ hreport)).symm
      · refine iff_of_false (fun hdiverged => ?_) fun h => by simp [hpolicy] at h
        rw [hresult] at hdiverged
        cases hrebuild : (rebuild moment t).result with
        | error fault =>
          rw [hrebuild] at hdiverged
          exact rebuild_ne_diverged why (hrebuild.trans (congrArg _ (Except.error.inj hdiverged)))
        | ok watched => simp [hrebuild, Except.map] at hdiverged

end Tracker

end TreeWatch
