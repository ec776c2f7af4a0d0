import TreeWatch.Proofs.FileTree.Spelling
import TreeWatch.Proofs.Tracker.Registration
import TreeWatch.Proofs.WatchTable.Duplicates

/-!
# Paths that entries share

An entry stands if its path leads to the directory that its watch is on. Entries that stand never
share a path, in any state and any tree: one path leads to one directory, and a directory has one
watch. So where a path is shared, all entries there but one are left over from directories that have
gone on.

Nothing looks for such an entry when a directory arrives at its path, and that is how a path comes
to be shared; what goes, and what only waits, never makes it so.
-/

namespace TreeWatch

namespace Tracker

open TreeWatch.Action

variable {moment : Moment} {tree : FileTree} {t u : Tracker} {event : Event}
  {ended : Option WatchId} {history : List Transition}

/-- The path of an entry leads to the directory that its watch is on. -/
def Stands (tree : FileTree) (t : Tracker) (entry : Entry) : Prop :=
  ∃ directory, tree.inspect entry.path = .ok (.directory directory) ∧
    (entry.id, directory) ∈ t.source.live

/-- Entries with the same path have the same watch. -/
def Unshared (t : Tracker) : Prop :=
  ∀ a ∈ t.table.entries, ∀ b ∈ t.table.entries, a.path.same b.path = true → a.id = b.id

namespace Registered

theorem id_eq_of_stands (h : Registered ended t) {a b : Entry} (hsame : a.path.same b.path = true)
    (ha : t.Stands tree a) (hb : t.Stands tree b) : a.id = b.id := by
  obtain ⟨first, hfirst, hlive⟩ := ha
  obtain ⟨second, hsecond, hlive'⟩ := hb
  obtain rfl := FileTree.eq_of_inspect_of_same hsame hfirst hsecond
  exact h.sound.eq_of_directory hlive hlive'

theorem eq_of_id {a b : Entry} (h : Registered ended t) (ha : a ∈ t.table.entries)
    (hb : b ∈ t.table.entries) (hid : a.id = b.id) : a = b :=
  List.inj_on_of_nodup_map h.ids ha hb hid

theorem unshared (h : Registered ended t)
    (hstand : ∀ entry ∈ t.table.entries, t.Stands tree entry) :
    t.Unshared := fun a ha b hb hsame => h.id_eq_of_stands hsame (hstand a ha) (hstand b hb)

theorem sharedPaths_eq_nil (h : Registered ended t) (hunshared : t.Unshared) :
    t.table.sharedPaths = [] := by
  refine WatchTable.sharedPaths_eq_nil_iff.mpr ((List.pairwise_map.mp h.ids).imp_of_mem ?_)
  intro a b ha hb hne
  exact Bool.eq_false_iff.mpr fun hsame => hne (hunshared a ha b hb hsame)

end Registered

theorem Unshared.of_subset (h : t.Unshared) (hentries : u.table.entries ⊆ t.table.entries) :
    u.Unshared := fun a ha b hb => h a (hentries ha) b (hentries hb)

section Transitions

variable {transition : Transition}

/-- Two entries are left at one path, and one of them does not stand there. -/
def Transition.Overlays (transition : Transition) : Prop :=
  ∃ a ∈ transition.after.table.entries, ∃ b ∈ transition.after.table.entries,
    a.id ≠ b.id ∧ a.path.same b.path = true ∧
      ¬ transition.after.Stands transition.moment.tree a

theorem Transition.overlays_of_not_unshared (h : Registered none transition.after)
    (hshared : ¬ transition.after.Unshared) : transition.Overlays := by
  simp only [Unshared, not_forall] at hshared
  obtain ⟨a, ha, b, hb, hsame, hne⟩ := hshared
  by_cases hstand : transition.after.Stands transition.moment.tree a
  · exact ⟨b, hb, a, ha, Ne.symm hne, Path.same_symm hsame,
      fun hother => hne (h.id_eq_of_stands hsame hstand hother)⟩
  · exact ⟨a, ha, b, hb, hne, hsame, hstand⟩

variable {n : Nat}

/-- A rebuild that begins is counted, so paths can be shared after it; one that does not begin
changes nothing. -/
theorem ends_rebuild_unshared (h : t.Unshared) (hrebuilds : t.counts.rebuilds = n) :
    rebuild.Ends moment t (fun _ u => u.counts.rebuilds = n → u.Unshared)
      fun _ u => u.counts.rebuilds = n → u.Unshared := by
  refine ends_rebuild_rebuilds.mono (fun _ u hu heq => ?_) fun _ u hu heq => ?_
  · omega
  · rcases hu with rfl | hu
    · exact h
    · omega

theorem ends_resolveDistrust_unshared {why : Distrust} (h : t.Unshared)
    (hrebuilds : t.counts.rebuilds = n) :
    (resolveDistrust why).Ends moment t (fun _ u => u.counts.rebuilds = n → u.Unshared)
      fun _ u => u.counts.rebuilds = n → u.Unshared := by
  rw [ends_resolveDistrust]
  split
  · exact fun _ => h
  · exact ends_rebuild_unshared h hrebuilds

theorem ends_handle_unshared (h : t.Unshared) (hrebuilds : t.counts.rebuilds = n)
    (harrives : ¬ event.Arrives) :
    (handle event).Ends moment t (fun _ u => u.counts.rebuilds = n → u.Unshared)
      fun _ u => u.counts.rebuilds = n → u.Unshared := by
  have hreceived := h.of_subset (shed_received t event).entries
  have hcounted : (t.received event).counts.rebuilds = n :=
    (Keeps.received t event).rebuilds.trans hrebuilds
  refine ends_handle_of ?_ ?_ ?_ (fun _ _ _ _ _ => suits_true) ?_ ?_ ?_
  · exact fun _ u hu _ => hreceived.of_subset hu.entries
  · exact fun harrives' => absurd harrives' harrives
  · exact fun harrives' => absurd harrives' harrives
  · exact fun _ _ _ => ends_resolveDistrust_unshared hreceived hcounted
  · intro _
    rw [ends_onOverflow]
    split
    · exact fun _ => hreceived
    · exact ends_rebuild_unshared hreceived hcounted
  · exact fun _ _ => hreceived.of_subset (entries_ended _ _)

theorem Unshared.after (h : transition.before.Unshared) (htakes : ¬ transition.TakesIn) :
    transition.after.Unshared := by
  obtain ⟨hstart, hrebuilds, harrives⟩ := by simpa only [Transition.TakesIn, not_or] using htakes
  rw [ne_eq, not_not] at hrebuilds
  suffices hends : transition.step.act.Ends transition.moment transition.before
      (fun _ u => u.counts.rebuilds = transition.before.counts.rebuilds → u.Unshared)
      fun _ u => u.counts.rebuilds = transition.before.counts.rebuilds → u.Unshared from
    hends.state hrebuilds
  have hevent {event : Event} (hsome : transition.event? = some event) : ¬ event.Arrives :=
    fun hothers => harrives ⟨event, hsome, hothers⟩
  apply Transition.ends_act
  · exact fun _ _ _ _ => h
  · exact fun hstep => absurd hstep hstart
  · exact fun event source hstep hnext =>
      ends_handle_unshared h rfl (hevent (by simp [Transition.event?, hstep, hnext]))
  · exact fun event hstep => ends_handle_unshared h rfl
      (hevent (by simp [Transition.event?, hstep]))
  · exact fun _ => h.of_subset (shed_expired _).entries
  · rw [ends_check]
    split
    · exact ends_resolveDistrust_unshared h rfl
    · exact fun _ => h
  · exact ends_rebuild_unshared h rfl

end Transitions

section Runs

variable {first : Tracker}

/-- The first step of a run after which entries share a path took something in where an entry was
left. -/
theorem Run.unshared_or (h : Run Transition.FindsRoom first history t)
    (hregistered : Registered none first) (hfirst : first.Unshared) :
    t.Unshared ∨ ∃ transition ∈ history, transition.TakesIn ∧ transition.Overlays := by
  induction h with
  | nil t => exact .inl hfirst
  | @cons transition rest u hroom _ ih =>
    have hafter := hregistered.after hroom
    by_cases hnext : transition.after.Unshared
    · exact (ih hafter hnext).imp_right fun ⟨other, hother, hboth⟩ =>
        ⟨other, List.mem_cons_of_mem _ hother, hboth⟩
    · have htakes : transition.TakesIn := by
        by_contra htakes
        exact hnext (hfirst.after htakes)
      exact .inr ⟨transition, List.mem_cons_self, htakes,
        transition.overlays_of_not_unshared hafter hnext⟩

/-- Entries that stand never share a path. A path comes to be shared only where a directory arrives,
or the table is built anew, and an entry is left at that path that does not stand there. -/
theorem shared_paths_are_left_over {roots : Roots} {policy : Policy}
    (h : Run Transition.FindsRoom (ofRoots .empty roots policy) history t) :
    (∀ tree, ∀ a ∈ t.table.entries, ∀ b ∈ t.table.entries, a.path.same b.path = true →
      t.Stands tree a → t.Stands tree b → a = b) ∧
    (∀ tree, (∀ entry ∈ t.table.entries, t.Stands tree entry) → t.table.sharedPaths = []) ∧
    (t.table.sharedPaths = [] ∨
      ∃ transition ∈ history, transition.TakesIn ∧ transition.Overlays) := by
  have hfresh : Registered none (ofRoots .empty roots policy) := .fresh roots policy rfl
  have hregistered : Registered none t := h.keeps hfresh fun _ hroom ht => ht.after hroom
  refine ⟨fun tree a ha b hb hsame hfirst hsecond => ?_, fun tree hstand => ?_, ?_⟩
  · exact hregistered.eq_of_id ha hb (hregistered.id_eq_of_stands hsame hfirst hsecond)
  · exact hregistered.sharedPaths_eq_nil (hregistered.unshared hstand)
  · exact (h.unshared_or hfresh fun a ha => by cases ha).imp_left hregistered.sharedPaths_eq_nil

/-- A directory is made, removed and made again under one name before the first news of it is read;
then it is renamed, and one more takes its old name. Every event is what a kernel would report, and
each is read in the tree that all these changes lead to. -/
def crossedSteps : List (Moment × Step) :=
  let old := FileTree.pathOf [[114], [112]]
  let new := FileTree.pathOf [[114], [113]]
  let after (count : Nat) : Moment :=
    ⟨((FileTree.empty.putDirectory [[114]]).applyAll
      (([.directory old, .remove old, .directory old, .move old new, .directory old] :
        List FileTree.Change).take count)).1, 0⟩
  [(after 0, .start), (after 1, .push ⟨⟨1⟩, .create, true, none, some [112]⟩),
    (after 3, .push ⟨⟨1⟩, .create, true, none, some [112]⟩), (after 3, .pump),
    (after 4, .push ⟨⟨1⟩, .movedFrom, true, some 7, some [112]⟩),
    (after 4, .push ⟨⟨1⟩, .movedTo, true, some 7, some [113]⟩),
    (after 4, .push (.onWatch ⟨2⟩ .moveSelf)),
    (after 5, .push ⟨⟨1⟩, .create, true, none, some [112]⟩)] ++
    List.replicate 5 (after 5, .pump)

/-- Where the second news of the old name is read, the directory that was renamed is still thought
there. -/
theorem shared_paths_are_left_over_of_rename :
    let first := ofRoots .empty ⟨[some ⟨FileTree.pathOf [[114]], 1⟩], 0⟩ ⟨true, .rescan⟩
    ∃ transition ∈ transitions first crossedSteps, transition.TakesIn ∧ transition.Overlays := by
  intro first
  have hroom : ∀ transition ∈ transitions first crossedSteps, transition.FindsRoom := by
    decide +kernel
  refine ((shared_paths_are_left_over (run_transitions hroom)).2.2).resolve_left ?_
  decide +kernel

/-- Two entries stay at one path for good, and the directory that was renamed has none: no step
fails, and no event is left. -/
theorem path_shared_after_rename :
    let first := ofRoots .empty ⟨[some ⟨FileTree.pathOf [[114]], 1⟩], 0⟩ ⟨true, .rescan⟩
    (∀ transition ∈ transitions first crossedSteps, transition.Succeeds) ∧
      (outcome first crossedSteps).source.queue = [] ∧
      (outcome first crossedSteps).table.sharedPaths = [FileTree.pathOf [[114], [112]]] ∧
      (outcome first crossedSteps).table.holdsPath (FileTree.pathOf [[114], [113]]) = false := by
  decide +kernel

end Runs

end Tracker

end TreeWatch
