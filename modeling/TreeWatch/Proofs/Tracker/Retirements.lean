import TreeWatch.Proofs.Roots.Naming
import TreeWatch.Proofs.Tracker.Laws

/-!
# Roots over whole runs

A root is retired in many places, and some of them may come to the same root more than once. All the
same each root is retired at most once, and three tallies always agree: the live roots, the retired
roots that the places count, and the retirements that the tracker counts. The last live root is
announced when it goes, and it can go only once.
-/

namespace TreeWatch

namespace Tracker

open TreeWatch.Action

variable {moment : Moment} {t u v : Tracker} {path : Path} {log : List Log.Line}

theorem flow_eq_rootsExhausted_iff : t.flow = .rootsExhausted ↔ t.roots.live = [] := by
  rw [← Roots.liveCount_eq_zero_iff, flow]
  split <;> simp [*]

/-- Between two states roots only went, each of them counted, and the end of the last was
announced. -/
structure Tallied (t : Tracker) (log : List Log.Line) (u : Tracker) : Prop where
  shrinks : t.roots.ShrinksTo u.roots
  kept : u.roots.liveCount + u.roots.retiredCount = t.roots.liveCount + t.roots.retiredCount
  counted : u.counts.rootsRetired + u.roots.liveCount = t.counts.rootsRetired + t.roots.liveCount
  announced : log.count exhaustedLine = if t.roots.live ≠ [] ∧ u.roots.live = [] then 1 else 0

namespace Tallied

theorem of_same (hroots : u.roots = t.roots)
    (hcounts : u.counts.rootsRetired = t.counts.rootsRetired) (hlog : exhaustedLine ∉ log) :
    Tallied t log u where
  shrinks := hroots ▸ .refl t.roots
  kept := by rw [hroots]
  counted := by rw [hroots, hcounts]
  announced := by
    rw [hroots, List.count_eq_zero_of_not_mem hlog, if_neg]
    exact fun h => h.1 h.2

theorem trans {more : List Log.Line} (h : Tallied t log u) (h' : Tallied u more v) :
    Tallied t (log ++ more) v where
  shrinks := h.shrinks.trans h'.shrinks
  kept := h'.kept.trans h.kept
  counted := h'.counted.trans h.counted
  announced := by
    rw [List.count_append, h.announced, h'.announced]
    have hfirst := h.shrinks.live_eq_nil
    have hsecond := h'.shrinks.live_eq_nil
    by_cases ht : t.roots.live = [] <;> by_cases hu : u.roots.live = [] <;> simp_all

end Tallied

/-- Retiring at a path announces the end of the last live root exactly if that is the root it
takes. -/
theorem count_retireRoot (moment : Moment) (t : Tracker) (path : Path) :
    (retireRoot path moment t).log.count exhaustedLine =
      if (t.roots.retire path).1 = .exhausted then 1 else 0 := by
  have hline : exhaustedLine ∉ t.roots.retireLines path := by
    unfold Roots.retireLines
    split
    · exact List.not_mem_nil
    · exact exhaustedLine_notMem_info (by simp [String.toList_append, ToString.toString])
  have hzero := List.count_eq_zero_of_not_mem hline
  rw [retireRoot, bind_apply, state_apply]
  simp only
  rcases t.roots.retire path with ⟨retirement, roots⟩
  cases retirement with
  | notARoot => simp
  | remaining count => simp [bind_apply, hzero]
  | exhausted =>
    change (t.roots.retireLines path ++ [exhaustedLine]).count exhaustedLine = 1
    rw [List.count_append, hzero, List.count_singleton_self]

theorem obeys_retireRoot (path : Path) : (retireRoot path).Obeys Tallied := by
  intro moment t
  rw [state_retireRoot]
  refine ⟨?_, ?_, rootsRetired_withoutRoot, (count_retireRoot moment t path).trans ?_⟩
  · rw [roots_withoutRoot]
    exact .retire _ _
  · rw [roots_withoutRoot]
    exact Roots.liveCount_add_retiredCount_retire t.roots path
  · rw [roots_withoutRoot]
    cases hroot : t.roots.isRoot path with
    | true =>
      have hexhausted := @Roots.retire_fst_eq_exhausted_iff t.roots path
      have hlive := Roots.liveCount_retire hroot
      simp only [hexhausted, hroot, true_and, ← Roots.liveCount_eq_zero_iff, ne_eq]
      congr 1
      rw [eq_iff_iff]
      omega
    | false =>
      rw [Roots.retire_of_not_isRoot hroot, if_neg (by simp), if_neg fun h => h.1 h.2]

/-- Whatever a tracker does, its roots stay accounted for. -/
theorem stepLaw_tallied : StepLaw Tallied where
  rest _ := .of_same rfl rfl List.not_mem_nil
  next h h' := h.trans h'
  said _ _ hlines := .of_same rfl rfl hlines
  asked _ := .of_same rfl rfl List.not_mem_nil
  released _ := .of_same rfl rfl List.not_mem_nil
  table _ _ := .of_same rfl rfl List.not_mem_nil
  draining _ _ := .of_same rfl rfl List.not_mem_nil
  retired := obeys_retireRoot
  cleared _ := .of_same rfl rfl List.not_mem_nil
  noted _ _ _ _ _ := .of_same rfl rfl List.not_mem_nil
  moved _ _ _ _ := .of_same rfl rfl List.not_mem_nil
  counted _ := .of_same rfl rfl List.not_mem_nil
  supplied _ _ := .of_same rfl rfl List.not_mem_nil

theorem stepLaw_shrinks : StepLaw fun t _ u => t.roots.ShrinksTo u.roots where
  rest t := .refl t.roots
  next h h' := h.trans h'
  said t _ _ := .refl t.roots
  asked _ := .refl _
  released _ := .refl _
  table t _ := .refl t.roots
  draining t _ := .refl t.roots
  retired path moment t := (obeys_retireRoot path moment t).shrinks
  cleared _ := .refl _
  noted t _ _ _ _ := .refl t.roots
  moved t _ _ _ := .refl t.roots
  counted t := .refl t.roots
  supplied t _ := .refl t.roots

theorem ends_start_flow :
    start.Ends moment t (fun flow u => flow = u.flow) fun _ _ => True :=
  ends_start.mpr (.of_forall (fun _ _ => rfl) fun _ _ => trivial)

theorem ends_handle_flow {event : Event} :
    (handle event).Ends moment t (fun flow u => flow = u.flow) fun _ _ => True := by
  rw [ends_handle]
  split
  · rfl
  · exact .of_forall (fun _ _ => rfl) fun _ _ => trivial

section Runs

variable {tree : FileTree} {paths : List Path} {roots : Roots} {source : Source} {policy : Policy}
  {history : List Transition}

/-- Whatever happens, and whether steps fail or not: each named root is live or retired and counted
once, the live ones are those named in their order but for some that went for good, the last of them
is announced when it goes and never again, and a step that tells how the work goes on tells whether
any is left. -/
theorem roots_are_accounted_for (hroots : Roots.ofPaths tree paths = .ok roots)
    (h : Run (fun _ => True) (ofRoots source roots policy) history t) :
    t.roots.liveCount + t.roots.retiredCount = paths.length ∧
    t.counts.rootsRetired = t.roots.retiredCount ∧
    List.Forall₂ (fun path root => Roots.identify tree path = .ok root) paths roots.live ∧
    t.roots.live.Sublist roots.live ∧
    (∀ transition ∈ history, transition.before.roots.ShrinksTo transition.after.roots) ∧
    (∀ path, (t.roots.retire path).1 = .exhausted ↔
      t.roots.isRoot path = true ∧ t.roots.liveCount = 1) ∧
    (∀ moment path, (retireRoot path moment t).log.count exhaustedLine =
      if (t.roots.retire path).1 = .exhausted then 1 else 0) ∧
    (history.flatMap (·.reply.log)).count exhaustedLine = (if t.roots.live = [] then 1 else 0) ∧
    (∀ moment flow, (start moment t).result = .ok flow →
      (flow = .rootsExhausted ↔ (start moment t).state.roots.live = [])) ∧
    ∀ moment event flow, (handle event moment t).result = .ok flow →
      (flow = .rootsExhausted ↔ (handle event moment t).state.roots.live = []) := by
  obtain ⟨hpaths, hretired, hidentified⟩ := Roots.ofPaths_identified hroots
  have htallied : Tallied (ofRoots source roots policy) (history.flatMap (·.reply.log)) t :=
    stepLaw_tallied.run h
  have hlength : roots.liveCount = paths.length := hidentified.length_eq.symm
  have hkept := htallied.kept
  have hcounted := htallied.counted
  simp only [ofRoots, Counts.zero] at hkept hcounted
  have hfirst : roots.live ≠ [] := by
    rw [ne_eq, ← Roots.liveCount_eq_zero_iff, hlength]
    exact fun h => hpaths (List.length_eq_zero_iff.mp h)
  refine ⟨by omega, by omega, hidentified, htallied.shrinks.live_sublist, ?_,
    fun path => Roots.retire_fst_eq_exhausted_iff, fun moment path =>
    count_retireRoot moment t path, ?_, ?_, ?_⟩
  · intro transition _
    exact (stepLaw_tallied.act transition.step transition.moment transition.before).shrinks
  · rw [htallied.announced]
    simp [ofRoots, hfirst]
  · intro moment flow hflow
    rw [ends_start_flow.of_ok hflow, flow_eq_rootsExhausted_iff]
  · intro moment event flow hflow
    rw [ends_handle_flow.of_ok hflow, flow_eq_rootsExhausted_iff]

/-- One root is deleted and its path taken anew, starting over is refused once and then done, and
the other root moves away: both roots are retired for good, and the end of the last is announced
once. -/
theorem roots_are_accounted_for_of_reappearance :
    let paths := [FileTree.pathOf [[114]], FileTree.pathOf [[115]]]
    let tree : FileTree := ⟨[([[114]], .directory 1), ([[115]], .directory 2)], 3⟩
    let later : Moment := ⟨⟨[([[114]], .directory 3), ([[115]], .directory 2)], 4⟩, 0⟩
    let roots : Roots := ⟨[some ⟨FileTree.pathOf [[114]], 1⟩, some ⟨FileTree.pathOf [[115]], 2⟩], 0⟩
    let steps : List (Moment × Step) :=
      [(⟨tree, 0⟩, .start), (later, .handle (.onWatch ⟨1⟩ .deleteSelf)), (later, .regulate [] true),
        (later, .rebuild), (later, .regulate [] false), (later, .rebuild),
        (later, .handle (.onWatch ⟨3⟩ .moveSelf)), (later, .rebuild)]
    let t := ofRoots .empty roots ⟨false, .rescan⟩
    Roots.ofPaths tree paths = .ok roots ∧
      ((transitions t steps).filter fun transition => !decide transition.Succeeds).length = 1 ∧
      (outcome t steps).roots.retiredCount = 2 ∧
      ((transitions t steps).flatMap (·.reply.log)).count exhaustedLine = 1 := by
  intro paths tree later roots steps t
  have hroots : Roots.ofPaths tree paths = .ok roots := rfl
  have hrun : Run (fun _ => True) t (transitions t steps) (outcome t steps) :=
    run_transitions fun _ _ => trivial
  have hlive : (outcome t steps).roots.live = [] := by decide +kernel
  obtain ⟨hsum, -, -, -, -, -, -, hannounced, -, -⟩ := roots_are_accounted_for hroots hrun
  rw [Roots.liveCount_eq_zero_iff.mpr hlive, Nat.zero_add] at hsum
  exact ⟨hroots, by decide +kernel, hsum, hannounced.trans (if_pos hlive)⟩

end Runs

end Tracker

end TreeWatch
