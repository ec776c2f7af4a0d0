import TreeWatch.Proofs.Tracker.Growth

/-!
# Events while no departure waits

What handling an event does to a tracker in which no departure waits and whose watch is not on its
way out: the common case, in which the event meets the table as it is.
-/

namespace TreeWatch

namespace Tracker

open TreeWatch.Action FileTree

variable {moment : Moment} {t u : Tracker} {failed : Fault → Tracker → Prop} {path : Path}
  {id : WatchId} {event : Event}

section Lookup

theorem exists_slotOf?_of_aligned {tree : FileTree} (h : Aligned tree t)
    (hentry : ⟨id, path⟩ ∈ t.table.entries) :
    ∃ slot, t.table.slotOf? id = some slot ∧ t.table.get? slot = some ⟨id, path⟩ := by
  obtain ⟨directory, hlive⟩ := h.live _ hentry
  exact WatchTable.exists_slotOf? h.ids hentry (h.sound.isUnbound hlive)

theorem pathOf?_of_aligned {tree : FileTree} (h : Aligned tree t)
    (hentry : ⟨id, path⟩ ∈ t.table.entries) : t.table.pathOf? id = some path := by
  obtain ⟨slot, hslot, hget⟩ := exists_slotOf?_of_aligned h hentry
  simp [WatchTable.pathOf?, hslot, hget]

theorem exists_withoutRoot (t : Tracker) (path : Path) : ∃ roots counts,
    t.withoutRoot path = { t with roots, counts } ∧
      roots.live = t.roots.live.eraseP (·.path.same path) := by
  have hlive := @live_withoutRoot t path
  unfold withoutRoot at hlive ⊢
  split at hlive
  · next h => exact ⟨_, _, if_pos h, hlive⟩
  · next h => exact ⟨t.roots, t.counts, if_neg h, hlive⟩

theorem exists_withoutWatch {tree : FileTree} (h : Aligned tree t)
    (hentry : ⟨id, path⟩ ∈ t.table.entries) (count : Counts → Counts) :
    ∃ slot roots counts, t.table.get? slot = some ⟨id, path⟩ ∧
      t.withoutWatch id count = { t with table := t.table.erase slot, roots, counts } ∧
      roots.live = t.roots.live.eraseP (·.path.same path) := by
  obtain ⟨slot, hslot, hget⟩ := exists_slotOf?_of_aligned h hentry
  obtain ⟨roots, counts, hu, hlive⟩ := exists_withoutRoot
    { t with table := t.table.erase slot, counts := count t.counts } path
  refine ⟨slot, roots, counts, hget, ?_, hlive⟩
  rw [withoutWatch, hslot]
  simp only [hget, hu]

theorem withoutWatch_of_absent (h : ∀ entry ∈ t.table.entries, entry.id ≠ id)
    (count : Counts → Counts) : t.withoutWatch id count = t := by
  rw [withoutWatch, WatchTable.slotOf?_eq_none_iff.mpr (.inr h)]

end Lookup

section Handling

theorem received_of_quiet (hquiet : t.departures = .empty) : t.received event = t.counted := by
  simp [received, hquiet, Departures.isEmpty, Departures.empty, counted]

theorem ends_handle_of_quiet (hquiet : t.departures = .empty)
    (hwatch : event.kind = .ignored ∨ event.watch ∉ t.draining) {done : Flow → Tracker → Prop} :
    (handle event).Ends moment t done failed ↔
      (applyEvent event).Ends moment t.counted (fun _ u => done u.flow u) failed := by
  rw [ends_handle, received_of_quiet hquiet, if_neg]
  rcases hwatch with hkind | hdraining
  · simp [isStale, hkind]
  · simp [isStale, isDraining, counted, hdraining]

theorem ends_subject_of_entry {tree : FileTree} (h : Aligned tree t)
    (hentry : ⟨event.watch, path⟩ ∈ t.table.entries) {name : Bytes} (hname : event.name = some name)
    {done : Option Path → Tracker → Prop} :
    (subject event).Ends moment t done failed ↔ done (some (path.child name)) t := by
  obtain ⟨slot, hslot, hget⟩ := exists_slotOf?_of_aligned h hentry
  simp only [subject, hname, ends_bind, ends_requireSlot, hslot, ends_state, ends_pure, hget,
    Option.map_some]

theorem ends_claim_of_quiet (hquiet : t.departures = .empty) {cookie : Option Nat}
    {done : Option Departure → Tracker → Prop} :
    (claim cookie).Ends moment t done failed ↔ done none t := by
  rw [ends_claim]
  cases cookie with
  | none => rfl
  | some cookie =>
    have hnone : t.departures.get? cookie = none := by rw [hquiet]; rfl
    have hsame : { t with departures := t.departures.erase cookie } = t :=
      congrArg (fun departures => { t with departures }) (by rw [hquiet]; rfl)
    simp only [hnone, hsame]

variable {tree : FileTree} {now : Nat} {location : Location} {name : Bytes}

theorem ends_welcome_of_cover {u : Tracker} {region : Location → Prop}
    (h : (coverSubtree path).Ends moment t
      (fun n v => Elsewhere u v ∧ Grown tree region u v n) failed) :
    (welcome path).Ends moment t
      (fun _ v => Aside u v ∧ v.roots = u.roots ∧ ∃ n, Grown tree region u v n) failed := by
  rw [welcome, ends_bind]
  apply h.imp
  intro n v hv
  split
  · exact ⟨⟨hv.1.departures, hv.1.draining, hv.1.policy⟩, hv.1.roots, n,
      hv.2.of_same rfl rfl rfl rfl⟩
  · exact ⟨hv.1.toAside, hv.1.roots, n, hv.2⟩

/-- A directory made in a watched directory, or moved there from nowhere, is covered. -/
theorem ends_handle_arrival (hwf : tree.WellFormed) (hquiet : t.departures = .empty)
    (hdraining : event.watch ∉ t.draining)
    (hkind : event.kind = .create ∨ event.kind = .movedTo) (hdirectory : event.isDirectory = true)
    (hname : event.name = some name) (hentry : ⟨event.watch, pathOf location⟩ ∈ t.table.entries)
    (hplace : IsPlace (location ++ [name])) (hlinks : tree.LinkFree (location ++ [name]))
    (hlink : ∀ target, tree.get? (location ++ [name]) ≠ some (.link target)) (h : Aligned tree t) :
    (handle event).Ends ⟨tree, now⟩ t
      (fun _ u => Aside t u ∧ u.roots = t.roots ∧
        ∃ n, Grown tree (location ++ [name] <+: ·) t u n) fun _ _ => Obstructed tree t := by
  have hcounted : Aligned tree t.counted := h.of_same rfl rfl
  have hentry' : ⟨event.watch, pathOf location⟩ ∈ t.counted.table.entries := hentry
  have hwelcome {v : Tracker} (hv : Aside t v) (hroots : v.roots = t.roots)
      (hsource : v.source = t.source) (htable : v.table = t.table) :
      (welcome (pathOf (location ++ [name]))).Ends ⟨tree, now⟩ v
        (fun _ u => Aside t u ∧ u.roots = t.roots ∧
          ∃ n, Grown tree (location ++ [name] <+: ·) t u n) fun _ _ => Obstructed tree t := by
    refine (ends_welcome_of_cover (ends_coverSubtree_grown hwf hplace hlinks hlink
      (h.of_same hsource htable))).mono (fun _ u hu => ?_) fun _ _ hfull => ?_
    · obtain ⟨haside, huroots, n, hgrown⟩ := hu
      exact ⟨hv.trans haside, huroots.trans hroots, n,
        hgrown.of_same hsource.symm htable.symm rfl rfl⟩
    · rwa [Obstructed, hsource, htable] at hfull
  rw [ends_handle_of_quiet hquiet (.inr hdraining), applyEvent]
  rcases hkind with hkind | hkind
  · rw [hkind]
    simp only [onCreate, hdirectory, if_true, ends_bind]
    rw [ends_subject_of_entry hcounted hentry' hname, child_pathOf hplace.left hplace.last]
    exact hwelcome ⟨rfl, rfl, rfl⟩ rfl rfl rfl
  · rw [hkind]
    simp only [onMovedTo, hdirectory, if_true, ends_bind]
    rw [ends_subject_of_entry hcounted hentry' hname, child_pathOf hplace.left hplace.last]
    have hnone : t.counted.departures = .empty := hquiet
    simp only [ends_bind, ends_claim_of_quiet hnone, ends_say]
    exact hwelcome ⟨rfl, rfl, rfl⟩ rfl rfl rfl

/-- A deleted directory loses its entry and its root, and its watch is on its way out. -/
theorem ends_handle_deleteSelf (hquiet : t.departures = .empty) (hdraining : id ∉ t.draining)
    (h : Aligned tree t) (hentry : ⟨id, path⟩ ∈ t.table.entries) :
    (handle (.onWatch id .deleteSelf)).Ends moment t
      (fun _ u => ∃ slot roots counts, t.table.get? slot = some ⟨id, path⟩ ∧
        roots.live = t.roots.live.eraseP (·.path.same path) ∧
        u = { t with
          table := t.table.erase slot, roots, counts, draining := t.draining ++ [id] })
      fun _ _ => False := by
  rw [ends_handle_of_quiet hquiet (.inr hdraining)]
  apply ends_onDeleteSelf.mpr
  have hdrained : t.counted.drained id = { t.counted with draining := t.draining ++ [id] } := by
    rw [drained, if_neg (by simpa [isDraining, counted] using hdraining)]
    rfl
  have haligned : Aligned tree { t.counted with draining := t.draining ++ [id] } :=
    h.of_same rfl rfl
  obtain ⟨slot, roots, counts, hget, hu, hlive⟩ := exists_withoutWatch haligned hentry
    fun counts => { counts with deleted := counts.deleted + 1 }
  refine ⟨slot, roots, counts, hget, hlive, ?_⟩
  change (t.counted.drained id).withoutWatch id _ = _
  rw [hdrained]
  exact hu

theorem ends_handle_ignored (hquiet : t.departures = .empty)
    (habsent : ∀ entry ∈ t.table.entries, entry.id ≠ id) :
    (handle (.onWatch id .ignored)).Ends moment t
      (fun _ u => ∃ counts, u = { t with draining := t.draining.filter (· != id), counts })
      fun _ _ => False := by
  rw [ends_handle_of_quiet hquiet (.inl rfl)]
  refine ends_onIgnored.mpr ⟨t.counted.counts, ?_⟩
  exact @withoutWatch_of_absent { t.counted with draining := t.draining.filter (· != id) } id
    habsent _

end Handling

end Tracker

end TreeWatch
