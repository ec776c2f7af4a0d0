import TreeWatch.Proofs.Tracker.Covering
import TreeWatch.Proofs.Tracker.Pairing

/-!
# Directories that arrive

What handling the arrival of a directory comes to, said by the watches that are asked for. A
directory that was made, or moved in from outside, is covered; one that completes a rename takes its
entries along if it is the directory that was known under the old path, and is covered otherwise.
-/

namespace TreeWatch

namespace Tracker

open TreeWatch.Action

variable {moment : Moment} {t u : Tracker} {event : Event} {entry : Entry} {name : Bytes}
  {source target : Path} {cookie : Nat} {departure : Departure}

/-- What completing a rename comes to: the target is no directory, or is the one that was known at
the old path, or another one. -/
theorem ends_rename_of {done : Tracker → Prop} (h : Registered none t)
    (hgone : (∀ directory, moment.tree.inspect target ≠ .ok (.directory directory)) → ∀ u : Tracker,
      u.source = t.source → u.table = t.table ∨ u.table = t.table.relocate source target → done u)
    (hmoved : ∀ id directory, moment.tree.inspect target = .ok (.directory directory) →
      (id, directory) ∈ t.source.live → t.table.idAt? source = some id → ∀ u : Tracker,
      u.source = t.source → u.table = t.table.relocate source target → done u)
    (hcovered : ∀ directory, moment.tree.inspect target = .ok (.directory directory) →
      (∀ id, t.table.idAt? source = some id → (id, directory) ∉ t.source.live) → ∀ counts u,
      counts.rebuilds = t.counts.rebuilds →
      WatchesEach moment.tree (met moment.tree target) { t with counts } u → done u) :
    (rename source target).Ends moment t (fun _ u => done u) fun _ _ => True := by
  rw [rename, ends_bind, ends_change]
  have hrebuilds : { t.counts with renamed := t.counts.renamed + 1 }.rebuilds = t.counts.rebuilds :=
    rfl
  generalize { t.counts with renamed := t.counts.renamed + 1 } = counts at hrebuilds ⊢
  simp only [ends_bind, ends_state, ends_requestWatch]
  cases hadd : t.source.add moment.tree target with
  | error error =>
    simp only
    split
    · trivial
    · next hdirectory =>
      have hnone : ∀ directory, moment.tree.inspect target ≠ .ok (.directory directory) :=
        fun _ hinspect => hdirectory (FileTree.isDirectory_of_inspect hinspect)
      rw [ends_say]
      split
      · simp only [ends_bind, ends_moveEntries, ends_retireRoot]
        exact hgone hnone _ source_withoutRoot (.inr table_withoutRoot)
      · exact hgone hnone _ rfl (.inl rfl)
  | ok found =>
    obtain ⟨id, next⟩ := found
    obtain ⟨directory, hinspect, hlive⟩ := Source.mem_live_of_add hadd
    simp only
    split
    · next hcached =>
      obtain ⟨entry, hentry, hid, -⟩ := exists_mem_entries_at hcached
      obtain rfl := h.source_eq_of_add hadd hentry hid
      simp only [ends_bind, ends_moveEntries, ends_say, ends_retireRoot]
      exact hmoved id directory hinspect hlive hcached _ source_withoutRoot table_withoutRoot
    · next hother =>
      have hregistered : Registered none { t with counts } := h.of_same rfl rfl rfl
      have hcover := @ends_coverSubtree_of_add moment { t with counts } (fun _ _ => True)
        target id next hadd (fun _ u => done u)
      rw [ends_bind, ends_say, ends_bind]
      refine hcover.mpr ((ends_coverSubtree_watches hregistered).imp fun _ u hu => ?_)
      refine hcovered directory hinspect (fun other hcached hwatch => hother ?_) counts u
        hrebuilds hu
      rw [hcached, (h.sound.add hadd).eq_of_directory (Source.live_subset_of_add hadd hwatch) hlive]

theorem ends_welcome_of {done : Tracker → Prop} (h : Registered none t)
    (hcovered : ∀ u, WatchesEach moment.tree (met moment.tree target) t u → ∀ counts,
      done { u with counts }) :
    (welcome target).Ends moment t (fun _ u => done u) fun _ _ => True := by
  rw [welcome, ends_bind]
  apply (ends_coverSubtree_watches h).imp
  intro watched u hu
  split
  · exact ends_change.mpr (hcovered u hu _)
  · exact ends_pure.mpr (hcovered u hu u.counts)

theorem received_of_completes (h : t.completes event = true) : t.received event = t.counted := by
  rw [received_eq ⟨.empty, 0⟩, settledFor, if_pos h]

/-- What handling an arrival comes to: it comes too late, or its watch is not known, or a directory
is welcomed, or a rename is completed. -/
theorem ends_handle_arrives {done : Tracker → Prop} {failed : Fault → Tracker → Prop}
    (harrives : event.Arrives) (hname : event.name = some name)
    (hstale : (t.received event).isStale event = true →
      ∀ counts, done { t.received event with counts })
    (hdistrust : (t.received event).table.slotOf? event.watch = none →
      (resolveDistrust (.unknownWatch event.watch)).Ends moment (t.received event)
      (fun _ u => done u) failed)
    (hwelcome : t.completes event = false → ∀ entry ∈ (t.received event).table.entries,
      entry.id = event.watch → ∀ departures, (welcome (entry.path.child name)).Ends moment
        { t.received event with departures } (fun _ u => done u) failed)
    (hrename : ∀ cookie departure, t.completes event = true → event.cookie = some cookie →
      t.departures.get? cookie = some departure → ∀ entry ∈ (t.received event).table.entries,
      entry.id = event.watch → ∀ departures,
        (rename departure.path (entry.path.child name)).Ends moment
        { t.received event with departures } (fun _ u => done u) failed) :
    (handle event).Ends moment t (fun _ u => done u) failed := by
  rw [ends_handle]
  split
  · next hlate => exact hstale hlate _
  · rcases harrives with ⟨hdirectory, hkind | hkind⟩
    · have hcompletes : t.completes event = false := by simp [completes, hkind]
      simp only [applyEvent, hkind, onCreate, hdirectory, if_true, ends_bind]
      refine ends_subject_of (fun hnone => absurd hnone (by simp [hname])) ?_ hdistrust
      intro entry hentry hid _ hother
      obtain rfl := Option.some.inj (hname.symm.trans hother)
      exact hwelcome hcompletes entry hentry hid _
    · simp only [applyEvent, hkind, onMovedTo, hdirectory, if_true, ends_bind]
      refine ends_subject_of (fun hnone => absurd hnone (by simp [hname])) ?_ hdistrust
      intro entry hentry hid _ hother
      obtain rfl := Option.some.inj (hname.symm.trans hother)
      simp only [ends_bind, ends_claim]
      cases hcookie : event.cookie with
      | none =>
        have hcompletes : t.completes event = false := by simp [completes, hcookie]
        simp only [ends_say]
        exact hwelcome hcompletes entry hentry hid _
      | some cookie =>
        cases hcompletes : t.completes event with
        | true =>
          have hsame : (t.received event).departures = t.departures := by
            rw [received_of_completes hcompletes]
            rfl
          have hsome : (t.departures.get? cookie).isSome = true := by
            simpa [completes, hkind, hcookie, Departures.contains] using hcompletes
          obtain ⟨departure, hdeparture⟩ := Option.isSome_iff_exists.mp hsome
          simp only [hsame, hdeparture]
          exact hrename cookie departure hcompletes hcookie hdeparture entry hentry hid _
        | false =>
          have hnone : (t.received event).departures.get? cookie = none := by
            rw [departures_received hcompletes]
            rfl
          simp only [hnone, ends_bind, ends_say]
          exact hwelcome hcompletes entry hentry hid _

theorem Transition.ends_arrival {transition : Transition} {done : Tracker → Prop}
    {failed : Fault → Tracker → Prop} (hevent : transition.event? = some event)
    (harrives : event.Arrives) (h : ∀ source : Source, source.live = transition.before.source.live →
      source.nextId = transition.before.source.nextId →
      (handle event).Ends transition.moment { transition.before with source } (fun _ u => done u)
        failed) :
    transition.step.act.Ends transition.moment transition.before (fun _ u => done u) failed := by
  have hkind : event.kind ≠ .ignored := by
    rcases harrives.2 with hkind | hkind <;> simp [hkind]
  apply Transition.ends_event hevent
  intro source hsource
  obtain ⟨hlive, hnextId, -⟩ := Source.registry_of_taken hkind hsource
  exact h source hlive hnextId

end Tracker

end TreeWatch
