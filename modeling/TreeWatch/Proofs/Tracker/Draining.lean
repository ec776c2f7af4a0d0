import TreeWatch.Proofs.FileTree.Identity
import TreeWatch.Proofs.Tracker.Dropping
import TreeWatch.Proofs.Tracker.Registration

/-!
# Watches on their way out

Until the source has announced the end of a watch that was given up, or whose directory is gone, the
events of that watch count for nothing. An entry with such a watch would hear nothing of its
directory; no entry ever has one. A watch is marked when its entry goes, and the source gives it out
no more: its directory has a new watch by then, or is gone for good.
-/

namespace TreeWatch

/-- A source that gives out this number next has given out the watch before, if there ever was
one. -/
def WatchId.GivenBefore (id : WatchId) (number : Nat) : Prop := ∃ n : Nat, id = ⟨n⟩ ∧ n < number

instance (id : WatchId) (number : Nat) : Decidable (id.GivenBefore number) :=
  decidable_of_iff (0 ≤ id.raw ∧ id.raw < number) <| by
    obtain ⟨raw⟩ := id
    simp only [WatchId.GivenBefore, WatchId.mk.injEq]
    exact ⟨fun h => ⟨raw.toNat, by omega, by omega⟩, fun ⟨n, hraw, hlt⟩ => by omega⟩

theorem WatchId.GivenBefore.mono {id : WatchId} {first second : Nat} (h : id.GivenBefore first)
    (hle : first ≤ second) : id.GivenBefore second :=
  h.imp fun _ => And.imp_right fun hlt => Nat.lt_of_lt_of_le hlt hle

namespace Tracker

open TreeWatch.Action

variable {moment : Moment} {tree : FileTree} {fits : Path → Prop} {t u : Tracker}
  {event : Event} {source : Source} {slot issued : Nat} {entry : Entry} {path : Path} {id : WatchId}
  {ended leaving : Option WatchId}

section Marks

theorem mem_draining_relinquished_iff {other : WatchId} :
    other ∈ (t.relinquished id).draining ↔ other = id ∨ other ∈ t.draining := by
  unfold relinquished
  split
  · next h =>
    refine ⟨.inr, fun hor => hor.elim (fun heq => heq ▸ List.contains_iff_mem.mp h) fun h => h⟩
  · rw [mem_draining_drained]
    unfold released
    split <;> exact .rfl

theorem ne_of_mem_live_relinquished {watch : WatchId × DirectoryId} (hdraining : id ∉ t.draining)
    (hwatch : watch ∈ (t.relinquished id).source.live) : watch.1 ≠ id := by
  have hnot : ¬ t.isDraining id = true := fun h => hdraining (List.contains_iff_mem.mp h)
  rw [relinquished, if_neg hnot, source_drained, released] at hwatch
  split at hwatch
  · next hremove =>
    obtain ⟨-, rfl⟩ := Source.remove_eq_ok_iff.mp hremove
    exact (Source.mem_live_forget.mp hwatch).2
  · next hremove =>
    rintro rfl
    have hlive : t.source.isLive watch.1 = true := Source.isLive_iff.mpr ⟨watch.2, hwatch⟩
    rw [Source.remove_eq_ok_iff.mpr ⟨hlive, rfl⟩] at hremove
    cases hremove

end Marks

/-- No entry has a watch on its way out, but for one that is just leaving. Each such watch was given
out before the step began that is being taken, which is when `issued` was the next number; and if
its directory is still watched, that is no directory of the tree any more. -/
structure Parted (tree : FileTree) (issued : Nat) (ended leaving : Option WatchId) (t : Tracker) :
    Prop where
  registered : Registered ended t
  known : ∀ watch ∈ t.source.live, watch.2 < tree.nextId
  given : ∀ entry ∈ t.table.entries, entry.id.GivenBefore t.source.nextId
  reached : issued ≤ t.source.nextId
  marked : ∀ id ∈ t.draining, id.GivenBefore issued
  apart : ∀ entry ∈ t.table.entries, entry.id ∈ t.draining → leaving = some entry.id
  gone : ∀ watch ∈ t.source.live, watch.1 ∈ t.draining → watch.2 ∉ tree.directories

/-- The same, and since the step began the source has given out no number. -/
def Unasked (tree : FileTree) (issued : Nat) (ended leaving : Option WatchId) (t : Tracker) :
    Prop :=
  Parted tree issued ended leaving t ∧ t.source.nextId = issued

namespace Parted

theorem of_same (h : Parted tree issued ended leaving t) (hlive : u.source.live = t.source.live)
    (hnextId : u.source.nextId = t.source.nextId) (htable : u.table = t.table)
    (hdraining : u.draining = t.draining) : Parted tree issued ended leaving u where
  registered := h.registered.of_same hlive hnextId htable
  known := hlive ▸ h.known
  given := by
    rw [htable, hnextId]
    exact h.given
  reached := hnextId ▸ h.reached
  marked := hdraining ▸ h.marked
  apart := by
    rw [htable, hdraining]
    exact h.apart
  gone := by
    rw [hlive, hdraining]
    exact h.gone

theorem left (h : Parted tree issued ended (some id) t)
    (hleft : ∀ entry ∈ t.table.entries, entry.id ≠ id) :
    Parted tree issued ended none t :=
  { h with apart := fun entry hentry hdraining =>
      absurd (Option.some.inj (h.apart entry hentry hdraining)).symm (hleft entry hentry) }

/-- An entry goes, and its watch at most is marked; then it is live no more, unless it was marked
before. -/
theorem without (h : Parted tree issued ended leaving t) (hget : t.table.get? slot = some entry)
    (hregistered : Registered ended u) (htable : u.table = t.table.erase slot)
    (hnextId : u.source.nextId = t.source.nextId) (hlive : u.source.live ⊆ t.source.live)
    (hmarked : ∀ id ∈ u.draining, id.GivenBefore issued ∧ (id = entry.id ∨ id ∈ t.draining))
    (hended : ∀ watch ∈ u.source.live, watch.1 = entry.id → entry.id ∈ t.draining) :
    Parted tree issued ended leaving u := by
  have hmem {other : Entry} (hother : other ∈ u.table.entries) :=
    (WatchTable.mem_entries_erase_iff h.registered.ids hget).mp (htable ▸ hother)
  refine ⟨hregistered, fun watch hwatch => h.known watch (hlive hwatch), ?_, hnextId ▸ h.reached,
    fun id hid => (hmarked id hid).1, ?_, ?_⟩
  · intro other hother
    exact hnextId ▸ h.given other (hmem hother).1
  · intro other hother hdraining
    obtain ⟨hother, hne⟩ := hmem hother
    exact h.apart other hother ((hmarked _ hdraining).2.resolve_left hne)
  · intro watch hwatch hdraining
    refine h.gone watch (hlive hwatch) ((hmarked _ hdraining).2.elim (fun heq => ?_) fun h => h)
    exact heq ▸ hended watch hwatch heq

theorem drained (h : Parted tree issued ended none t) (hgiven : id.GivenBefore issued)
    (hgone : ∀ watch ∈ t.source.live, watch.1 = id → watch.2 ∉ tree.directories) :
    Parted tree issued ended (some id) (t.drained id) where
  registered := h.registered.of_sheds (.drained t id)
  known := by simpa using h.known
  given := by simpa using h.given
  reached := by simpa using h.reached
  marked other hother := (mem_draining_drained.mp hother).elim (fun heq =>
    heq ▸ hgiven) (h.marked other)
  apart entry hentry hdraining := by
    rw [table_drained] at hentry
    rcases mem_draining_drained.mp hdraining with heq | hdraining
    · rw [heq]
    · cases h.apart entry hentry hdraining
  gone watch hwatch hdraining := by
    rw [source_drained] at hwatch
    exact (mem_draining_drained.mp hdraining).elim (hgone watch hwatch) (h.gone watch hwatch)

end Parted

/-- The watch of an event was given out, and if it is live, its directory is gone. -/
def Bereft (tree : FileTree) (t : Tracker) (id : WatchId) : Prop :=
  id.GivenBefore t.source.nextId ∧
    ∀ watch ∈ t.source.live, watch.1 = id → watch.2 ∉ tree.directories

instance (tree : FileTree) (t : Tracker) (id : WatchId) : Decidable (t.Bereft tree id) :=
  inferInstanceAs (Decidable (_ ∧ _))

theorem Bereft.received (h : t.Bereft tree id) (event : Event) :
    (t.received event).Bereft tree id := by
  obtain ⟨hlive, hnextId⟩ := (shed_received t event).source
  exact ⟨hnextId ▸ h.1, fun watch hwatch => h.2 watch (hlive.subset hwatch)⟩

namespace Unasked

theorem of_same (h : Unasked tree issued ended leaving t) (hlive : u.source.live = t.source.live)
    (hnextId : u.source.nextId = t.source.nextId) (htable : u.table = t.table)
    (hdraining : u.draining = t.draining) : Unasked tree issued ended leaving u :=
  ⟨h.1.of_same hlive hnextId htable hdraining, hnextId.trans h.2⟩

theorem weaken (h : Unasked tree issued none leaving t) (ended : Option WatchId) :
    Unasked tree issued ended leaving t :=
  ⟨{ h.1 with registered := h.1.registered.weaken ended }, h.2⟩

theorem withoutRoot (h : Unasked tree issued ended leaving t) (path : Path) :
    Unasked tree issued ended leaving (t.withoutRoot path) :=
  h.of_same (by simp) (by simp) (by simp) (by simp)

theorem givenUp (h : Unasked tree issued ended leaving t) (slot : Nat) :
    Unasked tree issued ended leaving (t.givenUp slot) := by
  cases hget : t.table.get? slot with
  | none => rwa [givenUp_of_free hget]
  | some entry =>
    rw [givenUp_of_get? hget]
    have hsheds := Sheds.gaveUp hget
    obtain ⟨hlive, hnextId⟩ := hsheds.source
    have hgiven : entry.id.GivenBefore issued :=
      h.2 ▸ h.1.given entry (WatchTable.mem_entries_of_get? hget)
    refine ⟨h.1.without hget (h.1.registered.of_sheds hsheds) (by simp) hnextId hlive.subset ?_ ?_,
      hnextId.trans h.2⟩
    · intro id hid
      rw [draining_withoutRoot] at hid
      have hor := mem_draining_relinquished_iff.mp hid
      exact ⟨hor.elim (fun heq => heq ▸ hgiven) (h.1.marked id), hor⟩
    · -- only a watch that was marked before can stay live
      intro watch hwatch heq
      rw [source_withoutRoot] at hwatch
      by_contra hdraining
      exact ne_of_mem_live_relinquished hdraining hwatch heq

theorem givingUp : GivingUp fun t u =>
    Unasked tree issued ended leaving t → Unasked tree issued ended leaving u :=
  ⟨fun h h' ht => h' (h ht), fun _ slot h => h.givenUp slot, fun _ _ _ _ h =>
    h.of_same rfl rfl rfl rfl⟩

theorem selfMoved (h : Unasked tree issued ended leaving t) (id : WatchId) :
    Unasked tree issued ended leaving (t.selfMoved id) := by
  unfold Tracker.selfMoved
  split
  · exact h
  · split
    · exact givingUp.withoutSubtree _ _ (h.withoutRoot _)
    · exact h

variable (h : Unasked tree issued ended none t) (hbereft : t.Bereft tree id)

include h hbereft

/-- The watch of a deleted directory is marked and loses its entry. -/
theorem deleted : Parted tree issued ended none
    ((t.drained id).withoutWatch id fun counts =>
      { counts with deleted := counts.deleted + 1 }) := by
  have hdrained := h.1.drained (h.2 ▸ hbereft.1) hbereft.2
  obtain ⟨heq, hslot⟩ | ⟨slot, entry, hget, rfl, heq⟩ := withoutWatch_eq_or (t.drained id) id
    fun counts => { counts with deleted := counts.deleted + 1 }
  · rw [heq]
    exact hdrained.left fun entry => hdrained.registered.ne_of_slotOf?_eq_none hslot
  · have hmarked : entry.id ∈ (t.drained entry.id).draining := mem_draining_drained.mpr (.inl rfl)
    have hsheds := Sheds.freed hget hmarked
      { (t.drained entry.id).counts with deleted := (t.drained entry.id).counts.deleted + 1 } rfl
    rw [heq]
    refine (hdrained.without hget (hdrained.registered.of_sheds hsheds) (by simp) (by simp)
      (by simp) (fun id hid => ?_) fun _ _ _ => hmarked).left fun other hother => ?_
    · rw [draining_withoutRoot] at hid
      exact ⟨hdrained.marked id hid, .inr hid⟩
    · rw [table_withoutRoot] at hother
      exact ((WatchTable.mem_entries_erase_iff hdrained.registered.ids hget).mp hother).2

/-- The watch of an unmounted directory is marked and loses its entry with all that is below it. -/
theorem unmounted : Parted tree issued ended none (t.unmounted id) := by
  have hdrained := h.1.drained (h.2 ▸ hbereft.1) hbereft.2
  have hunasked : Unasked tree issued ended (some id) (t.drained id) :=
    ⟨hdrained, by simpa using h.2⟩
  unfold Tracker.unmounted
  cases hslot : (t.drained id).table.slotOf? id with
  | none =>
    simp only [WatchTable.pathOf?, hslot]
    exact hdrained.left fun entry => hdrained.registered.ne_of_slotOf?_eq_none hslot
  | some slot =>
    obtain ⟨entry, hget, rfl⟩ := WatchTable.slotOf?_eq_some hslot
    have hpath : (t.drained entry.id).table.pathOf? entry.id = some entry.path := by
      rw [WatchTable.pathOf?, hslot]
      exact congrArg (Option.map (·.path)) hget
    simp only [hpath]
    refine (givingUp.withoutSubtree _ entry.path hunasked).1.left fun other hother hid => ?_
    -- the entry of the watch itself was at the top of what was given up
    obtain rfl : other = entry := List.inj_on_of_nodup_map hdrained.registered.ids
      ((shed_withoutSubtree _ _).entries hother) (WatchTable.mem_entries_of_get? hget) hid
    exact absurd (Path.isBelow_refl _)
      (Bool.eq_false_iff.mp (isBelow_eq_false_of_withoutSubtree hother))

end Unasked

section Gathering

namespace Parted

theorem notMem_draining (h : Parted tree issued ended leaving t) {n : Nat} (hle : issued ≤ n) :
    (⟨n⟩ : WatchId) ∉ t.draining := by
  intro hdraining
  obtain ⟨m, hid, hlt⟩ := h.marked _ hdraining
  have hraw : (n : Int) = m := congrArg WatchId.raw hid
  omega

/-- What the source gives out for a path of the tree is not on its way out. -/
theorem notMem_draining_of_add (h : Parted tree issued ended leaving t)
    (hadd : t.source.add tree path = .ok (id, source)) : id ∉ t.draining := by
  obtain ⟨-, directory, hinspect, ⟨hwatch, -⟩ | ⟨-, rfl, -⟩⟩ := Source.add_eq_ok_iff.mp hadd
  · exact fun hdraining => h.gone _ (Source.watchOf?_eq_some hwatch) hdraining
      (FileTree.mem_directories_of_inspect hinspect)
  · exact h.notMem_draining h.reached

theorem add (h : Parted tree issued ended leaving t) (htree : tree.Known)
    (hadd : t.source.add tree path = .ok (id, source)) :
    Parted tree issued ended leaving { t with source } := by
  have hregistered : Registered ended { t with source } :=
    ⟨h.registered.sound.add hadd, h.registered.ids, h.registered.bound,
      h.registered.live_of_subset (Source.live_subset_of_add hadd)⟩
  have hid := h.notMem_draining_of_add hadd
  obtain ⟨-, directory, hinspect, ⟨-, rfl⟩ | ⟨-, rfl, rfl⟩⟩ := Source.add_eq_ok_iff.mp hadd
  · exact h
  · have hmem {watch : WatchId × DirectoryId}
        (hwatch : watch ∈ (t.source.enrolled directory).live) :
        watch ∈ t.source.live ∨ watch = (⟨t.source.nextId⟩, directory) := by
      simpa [Source.enrolled] using hwatch
    refine ⟨hregistered, fun watch hwatch => ?_, fun entry hentry => ?_,
      Nat.le_succ_of_le h.reached, h.marked, h.apart, fun watch hwatch hdraining => ?_⟩
    · rcases hmem hwatch with hwatch | rfl
      · exact h.known watch hwatch
      · exact htree directory (FileTree.mem_directories_of_inspect hinspect)
    · exact (h.given entry hentry).mono (Nat.le_succ _)
    · rcases hmem hwatch with hwatch | rfl
      · exact h.gone watch hwatch hdraining
      · exact absurd hdraining hid

theorem of_gathers (h : Parted tree issued ended leaving t) (htree : tree.Known)
    (hu : Gathers tree fits t u) : Parted tree issued ended leaving u := by
  have hregistered := h.registered.of_gathers hu
  cases hu with
  | noted counts hrebuilds => exact h.of_same rfl rfl rfl rfl
  | retired path => exact h.of_same (by simp) (by simp) (by simp) (by simp)
  | requested hadd hentry => exact h.add htree hadd
  | @entered path id source slot table hadd hslot hinsert hfits =>
    have hadded := h.add htree hadd
    have hperm := WatchTable.entries_insert? hinsert
    obtain ⟨directory, -, hwatch⟩ := Source.mem_live_of_add hadd
    have hid : id.GivenBefore source.nextId := hadded.registered.sound.issued _ hwatch
    refine { hadded with registered := hregistered, given := ?_, apart := ?_ }
    · intro entry hentry
      rcases List.mem_cons.mp (hperm.mem_iff.mp hentry) with rfl | hentry
      · exact hid
      · exact hadded.given entry hentry
    · intro entry hentry hdraining
      rcases List.mem_cons.mp (hperm.mem_iff.mp hentry) with rfl | hentry
      · exact absurd hdraining (h.notMem_draining_of_add hadd)
      · exact hadded.apart entry hentry hdraining
  | @moved source target hheld hfits =>
    have hids := WatchTable.ids_relocate t.table source target
    have hbefore : ∀ entry ∈ (t.table.relocate source target).entries,
        ∃ before ∈ t.table.entries, before.id = entry.id :=
      fun entry hentry => List.mem_map.mp (hids ▸ List.mem_map_of_mem hentry)
    refine ⟨hregistered, by simpa using h.known, ?_, by simpa using h.reached,
      by simpa using h.marked, ?_, by simpa using h.gone⟩
    all_goals
      simp only [table_withoutRoot, source_withoutRoot, draining_withoutRoot]
      intro entry hentry
      obtain ⟨before, hbefore, hid⟩ := hbefore entry hentry
      rw [← hid]
    · exact h.given before hbefore
    · exact h.apart before hbefore

theorem wiped (h : Parted tree issued ended leaving t) : Parted tree issued none none t.wiped where
  registered := h.registered.wiped
  known := by simp [Tracker.wiped, cleared]
  given := by simp
  reached := h.reached
  marked := by simp [Tracker.wiped, cleared]
  apart := by simp
  gone := by simp [Tracker.wiped, cleared]

/-- What holds for the tree that was looked at holds for what becomes of it. -/
theorem evolves {before after : FileTree} (h : Parted before issued ended leaving t)
    (hevolves : before.Evolves after) :
    Parted after issued ended leaving t :=
  { h with
    known := fun watch hwatch => Nat.lt_of_lt_of_le (h.known watch hwatch) hevolves.nextId
    gone := fun watch hwatch hdraining hmem => by
      rcases hevolves.kept _ hmem with hmem | hle
      · exact h.gone watch hwatch hdraining hmem
      · exact absurd (h.known watch hwatch) (Nat.not_lt.mpr hle) }

theorem begin (h : Parted tree issued ended leaving t) :
    Unasked tree t.source.nextId ended leaving t :=
  ⟨{ h with reached := Nat.le_refl _, marked := fun id hid => (h.marked id hid).mono h.reached },
    rfl⟩

theorem grows (htree : tree.Known) : Grows tree (Parted tree issued none none) :=
  ⟨fun h => h.of_gathers htree, fun h => h.wiped⟩

end Parted

end Gathering

section Steps

theorem Unasked.close (h : Unasked tree issued (some id) none t) :
    Parted tree issued none none (t.ended id) where
  registered := h.1.registered.close
  known := by simpa using h.1.known
  given entry hentry := by simpa using h.1.given entry (entries_ended t id hentry)
  reached := by simpa using h.1.reached
  marked other hother := by
    rw [draining_ended] at hother
    exact h.1.marked other (List.mem_of_mem_filter hother)
  apart entry hentry hdraining := by
    rw [draining_ended] at hdraining
    exact h.1.apart entry (entries_ended t id hentry) (List.mem_of_mem_filter hdraining)
  gone watch hwatch hdraining := by
    rw [source_ended] at hwatch
    rw [draining_ended] at hdraining
    exact h.1.gone watch hwatch (List.mem_of_mem_filter hdraining)

theorem Unasked.take (h : Unasked tree issued none none t)
    (hnext : t.source.next? = some (event, source)) :
    Unasked tree issued (if event.kind = .ignored then some event.watch else none) none
      { t with source } := by
  obtain ⟨rest, -, -, -, hnextId, -⟩ := Source.next?_eq_some hnext
  have hsubset := Source.live_subset_of_next? hnext
  exact ⟨⟨h.1.registered.take hnext, fun watch hwatch => h.1.known watch (hsubset hwatch),
    fun entry hentry => by simpa only [hnextId] using h.1.given entry hentry,
    by simpa only [hnextId] using h.1.reached, h.1.marked, h.1.apart,
    fun watch hwatch => h.1.gone watch (hsubset hwatch)⟩, hnextId.trans h.2⟩

theorem Unasked.ends_handle (htree : moment.tree.Known)
    (h : Unasked moment.tree issued (if event.kind = .ignored then some event.watch else none) none
      t)
    (hevent : event.kind = .deleteSelf ∨ event.kind = .unmount → t.Bereft moment.tree event.watch) :
    (handle event).Ends moment t (fun _ u => Parted moment.tree issued none none u)
      fun fault u => Parted moment.tree issued none none u ∨
        ∃ capacity, fault = .noRoom capacity := by
  have hreceived := givingUp.received t event h
  have hother (hkind : event.kind ≠ .ignored) :
      Unasked moment.tree issued none none (t.received event) := by
    rwa [if_neg hkind] at hreceived
  have hgrows : Grows moment.tree (Parted moment.tree issued none none) := Parted.grows htree
  have harrives (h : event.Arrives) : event.kind ≠ .ignored := by
    rcases h.2 with hkind | hkind <;> simp [hkind]
  rw [Tracker.ends_handle]
  split
  · next hstale =>
    have hkind : event.kind ≠ .ignored := fun hkind => by simp [isStale, hkind] at hstale
    exact (hother hkind).1.of_same rfl rfl rfl rfl
  · apply ends_applyEvent_of_kept hreceived
    · exact fun departures hu => hu.of_same rfl rfl rfl rfl
    · exact fun path => givingUp.withoutMoved _ path
    · intro hkind u hu
      rw [if_neg hkind] at hu
      exact hu.1
    · intro h u v hu hv
      rw [if_neg (harrives h)] at hu
      exact hgrows.gathered hu.1 hv
    · intro h fault u v hu hv
      rw [if_neg (harrives h)] at hu
      exact hgrows.stalled hu.1 hv
    · exact fun _ _ _ _ _ => suits_true
    · exact fun hneeds _ => hgrows.ends_resolveDistrust (hother hneeds.2).1
    · intro hkind
      have hoverran : Parted moment.tree issued none none (t.received event).overran :=
        (hother (by simp [hkind])).1.of_same rfl rfl rfl rfl
      rw [ends_onOverflow]
      split
      · exact .inl hoverran
      · exact hgrows.ends_rebuild hoverran
    · intro hkind
      rw [if_pos hkind] at hreceived
      exact hreceived.close
    · exact fun hkind => (hother (by simp [hkind])).deleted ((hevent (.inl hkind)).received event)
    · exact fun hkind => ((hother (by simp [hkind])).selfMoved event.watch).1
    · exact fun hkind => (hother (by simp [hkind])).unmounted ((hevent (.inr hkind)).received event)

/-- An event that tells of the end of a directory comes on a watch that was given out, and the
directory, if it is still watched, is gone. -/
def Transition.EndsTruly (transition : Transition) : Prop :=
  ∀ event ∈ transition.event?, event.kind = .deleteSelf ∨ event.kind = .unmount →
    transition.before.Bereft transition.moment.tree event.watch

instance (transition : Transition) : Decidable transition.EndsTruly := by
  unfold Transition.EndsTruly
  infer_instance

theorem Parted.after {transition : Transition} (htree : transition.moment.tree.Known)
    (h : Parted transition.moment.tree issued none none transition.before)
    (hroom : transition.FindsRoom) (hends : transition.EndsTruly) :
    Parted transition.moment.tree transition.before.source.nextId none none transition.after := by
  have hbegun := h.begin
  have hgrows := @grows _ transition.before.source.nextId htree
  apply hroom.of_ends
  apply Transition.ends_act
  · exact fun source hlive hnextId => hbegun.1.of_same hlive hnextId rfl rfl
  · exact fun _ => hgrows.ends_cover hbegun.1
  · intro event source hstep hnext
    obtain ⟨rest, -, -, -, hnextId, -⟩ := Source.next?_eq_some hnext
    refine (hbegun.take hnext).ends_handle htree fun hkind => ?_
    obtain ⟨hgiven, hgone⟩ := hends event (by simp [Transition.event?, hstep, hnext]) hkind
    exact ⟨by rwa [hnextId], fun watch hwatch =>
      hgone watch (Source.live_subset_of_next? hnext hwatch)⟩
  · intro event hstep
    exact (hbegun.weaken _).ends_handle htree (hends event (by simp [Transition.event?, hstep]))
  · exact (Unasked.givingUp.expired _ hbegun).1
  · exact hgrows.ends_check hbegun.1
  · exact hgrows.ends_rebuild hbegun.1

end Steps

section Runs

variable {history : List Transition}

theorem Run.parted (htrees : (tree :: history.map (·.moment.tree)).IsChain FileTree.Evolves)
    (h : Run (fun transition => transition.FindsRoom ∧ transition.EndsTruly) t history u)
    (hparted : Parted tree t.source.nextId none none t) :
    (∃ tree, Parted tree u.source.nextId none none u) ∧ ∀ transition ∈ history,
      Parted transition.moment.tree transition.before.source.nextId none none transition.before ∧
        Parted transition.moment.tree transition.before.source.nextId none none
          transition.after := by
  induction h generalizing tree with
  | nil t => exact ⟨⟨tree, hparted⟩, by simp⟩
  | @cons transition history u hadmits _ ih =>
    rw [List.map_cons, List.isChain_cons_cons] at htrees
    have hbefore := hparted.evolves htrees.1
    have hafter := hbefore.after htrees.1.known hadmits.1 hadmits.2
    obtain ⟨hlast, hrest⟩ := ih htrees.2 hafter.begin.1
    refine ⟨hlast, fun other hother => ?_⟩
    rcases List.mem_cons.mp hother with rfl | hother
    · exact ⟨hbefore, hafter⟩
    · exact hrest other hother

/-- Where no identity of a directory comes back and the ends of directories are truly told, no entry
has a watch that is on its way out. Nor is any number that the source has yet to give out, nor any
that it gives out in a step, be it at the beginning of the step or at its end, nor a watch that it
gives again. A step that is refused a watch stops where it asks for it, so the states in which
watches are asked for can be seen between steps too. -/
theorem no_entry_is_on_its_way_out {roots : Roots} {policy : Policy} (hlive : source.live = [])
    (htrees : (tree :: history.map (·.moment.tree)).IsChain FileTree.Evolves)
    (h : Run (fun transition => transition.FindsRoom ∧ transition.EndsTruly)
      (ofRoots source roots policy) history t) :
    (∀ entry ∈ t.table.entries, entry.id ∉ t.draining) ∧
    (∀ n : Nat, t.source.nextId ≤ n → (⟨n⟩ : WatchId) ∉ t.draining) ∧
    ∀ transition ∈ history,
      (∀ n : Nat, transition.before.source.nextId ≤ n → n < transition.after.source.nextId →
        (⟨n⟩ : WatchId) ∉ transition.before.draining ∧
        (⟨n⟩ : WatchId) ∉ transition.after.draining) ∧
      ∀ u ∈ [transition.before, transition.after], ∀ path id source,
        u.source.add transition.moment.tree path = .ok (id, source) → id ∉ u.draining := by
  have hfirst : Parted tree source.nextId none none (ofRoots source roots policy) :=
    ⟨.fresh roots policy hlive, by simp [ofRoots, hlive], by simp [ofRoots, WatchTable.empty,
      WatchTable.ofStep, WatchTable.entries], Nat.le_refl _, by simp [ofRoots], by simp [ofRoots],
      by simp [ofRoots]⟩
  obtain ⟨⟨last, hlast⟩, hsteps⟩ := h.parted htrees hfirst
  refine ⟨fun entry hentry hdraining => ?_, fun n => hlast.notMem_draining,
    fun transition hmem => ?_⟩
  · cases hlast.apart entry hentry hdraining
  · obtain ⟨hbefore, hafter⟩ := hsteps transition hmem
    refine ⟨fun n hle _ => ⟨hbefore.notMem_draining hle, hafter.notMem_draining hle⟩, ?_⟩
    intro u hu path id source hadd
    rcases List.mem_pair.mp hu with rfl | rfl
    · exact hbefore.notMem_draining_of_add hadd
    · exact hafter.notMem_draining_of_add hadd

/-- A directory is deleted and made again, told to have left while it is still there, and told to
have come back: each time it has a watch of a new number, and the old ones stay marked. -/
theorem no_entry_is_on_its_way_out_of_remade :
    let path := FileTree.pathOf [[114], [97]]
    let tree : FileTree := ⟨[([[114]], .directory 1), ([[114], [97]], .directory 2)], 3⟩
    let gone := (tree.applyAll [.remove path]).1
    let again := (gone.applyAll [.directory path]).1
    let steps : List (Moment × Step) :=
      [(⟨tree, 0⟩, .start), (⟨gone, 0⟩, .handle (.onWatch ⟨2⟩ .deleteSelf)),
        (⟨again, 0⟩, .handle ⟨⟨1⟩, .create, true, none, some [97]⟩),
        (⟨again, 0⟩, .handle ⟨⟨1⟩, .movedFrom, true, none, some [97]⟩),
        (⟨again, 0⟩, .handle ⟨⟨1⟩, .create, true, none, some [97]⟩)]
    let t := ofRoots .empty ⟨[some ⟨FileTree.pathOf [[114]], 1⟩], 0⟩ ⟨true, .rescan⟩
    (outcome t steps).draining = [⟨2⟩, ⟨3⟩] ∧
      (outcome t steps).table.entries.map (·.id) = [⟨1⟩, ⟨4⟩] ∧
      ∀ entry ∈ (outcome t steps).table.entries, entry.id ∉ (outcome t steps).draining := by
  intro path tree gone again steps t
  have hknown : tree.Known := by unfold FileTree.Known; decide
  have hgone : tree.Evolves gone := .applyAll [.remove path] hknown
  have hagain : gone.Evolves again := .applyAll [.directory path] hgone.known
  have hsame : again.Evolves again := .refl hagain.known
  have hrun : Run (fun transition => transition.FindsRoom ∧ transition.EndsTruly) t
      (transitions t steps) (outcome t steps) := run_transitions (by decide +kernel)
  have htrees : (tree :: (transitions t steps).map (·.moment.tree)).IsChain FileTree.Evolves :=
    .cons_cons (.refl hknown) <| .cons_cons hgone <| .cons_cons hagain <| .cons_cons hsame <|
      .cons_cons hsame (.singleton again)
  exact ⟨by decide +kernel, by decide +kernel, (no_entry_is_on_its_way_out rfl htrees hrun).1⟩

end Runs

end Tracker

end TreeWatch
