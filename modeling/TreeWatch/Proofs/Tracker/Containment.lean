import TreeWatch.Proofs.Tracker.Draining
import TreeWatch.Proofs.Tracker.Lasting

/-!
# The table stays below the roots

Every path in the table is at or below that of a root that was named, whatever happened since: names
are joined to paths that are there, walks go down, entries move to places that are below roots
themselves, and what the length limit cuts off is behind the path of the root.

When the directory of a root has moved away, or its file system is gone, all that is at or below its
path goes. Departures that wait may take the entry first, and then they take all this along.
-/

namespace TreeWatch

namespace Tracker

open TreeWatch.Action

variable {moment : Moment} {tree : FileTree} {t u : Tracker} {path : Path} {slot : Nat}
  {entry erased : Entry} {rooted : Bool} {event : Event} {history : List Transition}

/-- No entry is at or below a path. -/
def Vacant (t : Tracker) (path : Path) : Prop :=
  ∀ entry ∈ t.table.entries, entry.path.isBelow path = false

instance (t : Tracker) (path : Path) : Decidable (t.Vacant path) :=
  inferInstanceAs (Decidable (∀ entry ∈ t.table.entries, entry.path.isBelow path = false))

theorem Vacant.of_shed (h : t.Vacant path) (hu : Shed t u) : u.Vacant path :=
  fun entry hentry => h entry (hu.entries hentry)

theorem vacant_withoutSubtree (t : Tracker) (path : Path) : (t.withoutSubtree path).Vacant path :=
  fun _ => isBelow_eq_false_of_withoutSubtree

theorem isRoot_withoutRoot {other : Path} (hother : path.same other = false) :
    (t.withoutRoot other).roots.isRoot path = t.roots.isRoot path := by
  rw [Bool.eq_iff_iff, Roots.isRoot_iff, Roots.isRoot_iff, live_withoutRoot]
  constructor
  · rintro ⟨root, hroot, hsame⟩
    exact ⟨root, List.mem_of_mem_eraseP hroot, hsame⟩
  · rintro ⟨root, hroot, hsame⟩
    have hne : ¬ root.path.same other = true := fun hat =>
      Bool.false_ne_true (hother.symm.trans (Path.same_trans (Path.same_symm hsame) hat))
    exact ⟨root, (List.mem_eraseP_of_neg (p := (·.path.same other)) hne).mpr hroot, hsame⟩

/-- An entry that counts: it is the only one with its watch, which is not on its way out. Whether
there is a live root at its path is recorded. -/
structure Remains (entry : Entry) (rooted : Bool) (t : Tracker) : Prop where
  ids : (t.table.entries.map (·.id)).Nodup
  held : entry ∈ t.table.entries
  attended : entry.id ∉ t.draining
  root : t.roots.isRoot entry.path = rooted

namespace Remains

theorem gaveUp (h : Remains entry rooted t) (hget : t.table.get? slot = some erased)
    (hother : entry.path.same erased.path = false) : Remains entry rooted (t.givenUp slot) := by
  have hentry : entry ∈ (t.table.erase slot).entries := by
    rcases List.mem_cons.mp ((WatchTable.entries_erase hget).mem_iff.mp h.held) with rfl | hentry
    · simp at hother
    · exact hentry
  have hne : entry.id ≠ erased.id := ((WatchTable.mem_entries_erase_iff h.ids hget).mp hentry).2
  rw [givenUp_of_get? hget]
  constructor
  · rw [table_withoutRoot]
    exact (WatchTable.nodup_ids_erase h.ids hget).1
  · rwa [table_withoutRoot]
  · rw [draining_withoutRoot, mem_draining_relinquished_iff]
    exact not_or.mpr ⟨hne, h.attended⟩
  · rw [isRoot_withoutRoot hother, roots_relinquished]
    exact h.root

theorem givenUpAll {slots : List Nat} (h : Remains entry rooted t)
    (hslots : ∀ slot ∈ slots, ∀ erased, t.table.get? slot = some erased →
      entry.path.same erased.path = false) : Remains entry rooted (t.givenUpAll slots) := by
  induction slots generalizing t with
  | nil => exact h
  | cons slot rest ih =>
    have hslot : Remains entry rooted (t.givenUp slot) := by
      cases hget : t.table.get? slot with
      | none => rwa [givenUp_of_free hget]
      | some erased => exact h.gaveUp hget (hslots slot List.mem_cons_self erased hget)
    apply ih hslot
    intro other hother erased hget
    rw [get?_givenUp] at hget
    split at hget
    · cases hget
    · exact hslots other (List.mem_cons_of_mem _ hother) erased hget

/-- A subtree that is given up takes an entry and all below it, or leaves the entry alone. -/
theorem withoutSubtree (h : Remains entry rooted t) (path : Path) :
    Remains entry rooted (t.withoutSubtree path) ∨ (t.withoutSubtree path).Vacant entry.path := by
  cases hbelow : entry.path.isBelow path with
  | true =>
    refine .inr fun other hother => Bool.eq_false_iff.mpr fun hat => ?_
    exact Bool.false_ne_true ((vacant_withoutSubtree t path other hother).symm.trans
      (Path.isBelow_trans hat hbelow))
  | false =>
    refine .inl (h.givenUpAll fun slot hslot erased hget => Bool.eq_false_iff.mpr fun hsame => ?_)
    obtain ⟨found, hfound, hat⟩ := WatchTable.mem_slotsBelow_iff.mp hslot
    obtain rfl := Option.some.inj (hget.symm.trans hfound)
    rw [← Path.isBelow_congr hsame] at hat
    exact Bool.false_ne_true (hbelow.symm.trans hat)

theorem noted {departures : Departures} {counts : Counts} (h : Remains entry rooted t) :
    Remains entry rooted { t with departures, counts } := ⟨h.ids, h.held, h.attended, h.root⟩

theorem settled (waiting : List Departure) (h : Remains entry rooted t ∨ t.Vacant entry.path) :
    let u := waiting.foldl (fun t departure => t.withoutMoved departure.path) t
    Remains entry rooted u ∨ u.Vacant entry.path := by
  induction waiting generalizing t with
  | nil => exact h
  | cons departure rest ih =>
    apply ih
    rcases h with h | h
    · exact (h.withoutSubtree departure.path).imp noted fun h => h
    · exact .inr (h.of_shed (shed_withoutMoved t departure.path))

theorem received (h : Remains entry rooted t) (event : Event) :
    Remains entry rooted (t.received event) ∨ (t.received event).Vacant entry.path := by
  rw [Tracker.received]
  split
  · exact settled _ (.inl h.noted)
  · exact .inl h.noted

theorem pathOf? (h : Remains entry rooted t) (hbound : entry.id.isUnbound = false) :
    t.table.pathOf? entry.id = some entry.path := by
  obtain ⟨slot, hslot, hget⟩ := WatchTable.exists_slotOf? h.ids h.held hbound
  simp [WatchTable.pathOf?, hslot, hget]

end Remains

/-- After the end of a root's own directory was taken in, nothing at or below its path is left. -/
theorem ends_handle_gone (h : Remains entry rooted t) (hbound : entry.id.isUnbound = false)
    (hwatch : entry.id = event.watch)
    (hgone : event.kind = .moveSelf ∧ rooted = true ∨ event.kind = .unmount) :
    (handle event).Ends moment t (fun _ u => u.Vacant entry.path) fun _ _ => False := by
  have hleaves (hvacant : (t.received event).Vacant entry.path) :
      ((t.received event).selfMoved event.watch).Vacant entry.path ∧
        ((t.received event).unmounted event.watch).Vacant entry.path :=
    ⟨hvacant.of_shed (shed_selfMoved _ _), hvacant.of_shed (shed_unmounted _ _)⟩
  have hkind : event.kind ≠ .ignored ∧ event.kind ≠ .overflow := by
    rcases hgone with ⟨hkind, -⟩ | hkind <;> simp [hkind]
  have happly : (applyEvent event).Ends moment (t.received event) (fun _ u => u.Vacant entry.path)
      fun _ _ => False := by
    rw [applyEvent]
    rcases hgone with ⟨hkind, hroot⟩ | hkind <;> simp only [hkind]
    · rw [ends_onMoveSelf]
      rcases h.received event with hremains | hvacant
      · rw [selfMoved, ← hwatch, hremains.pathOf? hbound]
        simp only [hremains.root, hroot, if_true]
        exact vacant_withoutSubtree _ _
      · exact (hleaves hvacant).1
    · rw [ends_onUnmount]
      rcases h.received event with hremains | hvacant
      · rw [unmounted, table_drained, ← hwatch, hremains.pathOf? hbound]
        exact vacant_withoutSubtree _ _
      · exact (hleaves hvacant).2
  rw [ends_handle]
  split
  · next hstale =>
    rcases h.received event with hremains | hvacant
    · simp [isStale, isDraining, ← hwatch, hremains.attended] at hstale
    · exact hvacant
  · exact happly

section Runs

variable {named : Roots} {paths : List Path} {source : Source} {policy : Policy}

/-- Whatever happens, and whether steps fail or not, the table holds only paths at and below those
of the roots that were named. And when the directory of a live root that has an entry has moved, or
the file system that holds a watched directory is unmounted, the event that tells so is handled
without fail, and no entry is left at or below the path. -/
theorem entries_stay_below_roots (hwf : tree.WellFormed)
    (hnamed : Roots.ofPaths tree paths = .ok named) (hlive : source.live = [])
    (h : Run Transition.Regular (ofRoots source named policy) history t) :
    (∀ entry ∈ t.table.entries, ∃ root ∈ named.live, entry.path.isBelow root.path = true) ∧
    ∀ transition : Transition, transition.before = t → ∀ event, transition.event? = some event →
      ∀ entry ∈ t.table.entries, entry.id = event.watch → event.watch ∉ t.draining →
      (event.kind = .moveSelf ∧ t.roots.isRoot entry.path = true ∨ event.kind = .unmount) →
      transition.Succeeds ∧ transition.after.Vacant entry.path := by
  have hproper := Roots.proper_of_ofPaths hwf hnamed
  constructor
  · intro entry hentry
    obtain ⟨root, hroot, -, hpath⟩ := (h.grounded hproper).entries entry hentry
    exact ⟨root, hroot, hpath.isBelow (hproper.absolute root hroot)⟩
  · rintro transition rfl event hevent entry hentry hwatch hdraining hgone
    have hregistered := h.registered hlive
    have hends : transition.step.act.Ends transition.moment transition.before
        (fun _ u => u.Vacant entry.path) fun _ _ => False := by
      apply Transition.ends_event hevent
      intro source _
      have hremains : Remains entry (transition.before.roots.isRoot entry.path)
          { transition.before with source } :=
        ⟨hregistered.ids, hentry, hwatch ▸ hdraining, rfl⟩
      exact ends_handle_gone hremains (hregistered.bound entry hentry) hwatch hgone
    exact Transition.succeeds_and hends

/-- Starting over is refused, and a directory has left a root that moves itself then: both the
root's entry and what waits below it go. -/
theorem entries_stay_below_roots_of_departure :
    let before := (FileTree.empty.putDirectory [[114]]).putDirectory [[114], [97]]
    let named : Roots := ⟨[some ⟨FileTree.pathOf [[114]], 1⟩], 0⟩
    let steps : List (Moment × Step) :=
      [.start, .regulate [] true, .rebuild, .handle ⟨⟨1⟩, .movedFrom, true, some 7, some [97]⟩].map
        fun step => (⟨before, 0⟩, step)
    let first := ofRoots .empty named ⟨false, .rescan⟩
    let last : Transition :=
      ⟨⟨before.relocate [[114]] [[115]], 0⟩, outcome first steps, .handle (.onWatch ⟨1⟩ .moveSelf)⟩
    Roots.ofPaths before [FileTree.pathOf [[114]]] = .ok named ∧
      last.before.table.entries.length = 2 ∧ last.before.departures.size = 1 ∧
      last.Succeeds ∧ last.after.Vacant (FileTree.pathOf [[114]]) := by
  intro before named steps first last
  have hwf : before.WellFormed := by decide +kernel
  have hnamed : Roots.ofPaths before [FileTree.pathOf [[114]]] = .ok named := by decide +kernel
  have hevents : ∀ transition ∈ transitions first steps, ∀ event ∈ transition.event?,
      ∀ name ∈ event.name, slash ∉ name := by decide +kernel
  have htrees : ∀ step ∈ steps, step.1.tree.WellFormed := by
    simp only [steps, List.mem_map]
    rintro _ ⟨step, -, rfl⟩
    exact hwf
  have hrun : Run Transition.Regular first (transitions first steps) (outcome first steps) :=
    run_transitions fun transition htransition =>
      ⟨htrees _ (mem_steps_of_mem_transitions htransition), hevents transition htransition⟩
  have hentry : ⟨⟨1⟩, FileTree.pathOf [[114]]⟩ ∈ (outcome first steps).table.entries := by
    decide +kernel
  have hdraining : ⟨1⟩ ∉ (outcome first steps).draining := by decide +kernel
  have hroot : (outcome first steps).roots.isRoot (FileTree.pathOf [[114]]) = true := by
    decide +kernel
  have hbefore : last.before = outcome first steps := by dsimp only [last]
  have hlast := (entries_stay_below_roots hwf hnamed rfl hrun).2 last hbefore
    (.onWatch ⟨1⟩ .moveSelf) rfl ⟨⟨1⟩, FileTree.pathOf [[114]]⟩ hentry rfl hdraining
    (.inl ⟨rfl, hroot⟩)
  exact ⟨hnamed, by decide +kernel, by decide +kernel, hlast⟩

end Runs

end Tracker

end TreeWatch
