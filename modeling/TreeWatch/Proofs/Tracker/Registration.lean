import TreeWatch.Proofs.Tracker.Accounting
import TreeWatch.Proofs.Tracker.Runs

/-!
# No watch is lost

Whatever is done with a tracker, and whatever its source reports, entries have live watches of their
own; and as long as events come from the queue, every live watch has an entry or is on its way out.
A step that a refusal ends halfway is no exception: what was done up to there stays in order.

While the event that announces the end of a watch is handled, the watch has ended already and its
entry may still be there.
-/

namespace TreeWatch

namespace Tracker

open TreeWatch.Action

variable {moment : Moment} {tree : FileTree} {fits : Path → Prop} {t u : Tracker} {event : Event}
  {source : Source} {slot : Nat} {entry : Entry} {ended : Option WatchId}

/-- Entries have watches of their own, which are live; the watch that has just ended may be an
exception. -/
structure Registered (ended : Option WatchId) (t : Tracker) : Prop where
  sound : t.source.Sound
  ids : (t.table.entries.map (·.id)).Nodup
  bound : ∀ entry ∈ t.table.entries, entry.id.isUnbound = false
  live : ∀ entry ∈ t.table.entries, t.source.isLive entry.id = true ∨ ended = some entry.id

namespace Registered

theorem of_same (h : Registered ended t) (hlive : u.source.live = t.source.live)
    (hnextId : u.source.nextId = t.source.nextId) (htable : u.table = t.table) :
    Registered ended u where
  sound := h.sound.of_sublist (hlive ▸ List.Sublist.refl _) hnextId
  ids := htable ▸ h.ids
  bound := htable ▸ h.bound
  live := by
    rw [htable]
    simpa only [Source.isLive, hlive] using h.live

theorem without (h : Registered ended t) (hget : t.table.get? slot = some entry)
    (htable : u.table = t.table.erase slot) (hsound : u.source.Sound)
    (hlive : ∀ watch ∈ t.source.live, watch.1 ≠ entry.id → watch ∈ u.source.live) :
    Registered ended u := by
  have hids := (WatchTable.nodup_ids_erase h.ids hget).1
  have hmem {other : Entry} (hother : other ∈ u.table.entries) :=
    (WatchTable.mem_entries_erase_iff h.ids hget).mp (htable ▸ hother)
  refine ⟨hsound, htable ▸ hids, fun other hother => h.bound other (hmem hother).1, ?_⟩
  intro other hother
  obtain ⟨hother, hne⟩ := hmem hother
  refine (h.live other hother).imp_left fun hother => ?_
  obtain ⟨directory, hwatch⟩ := Source.isLive_iff.mp hother
  exact Source.isLive_iff.mpr ⟨directory, hlive _ hwatch hne⟩

theorem of_sheds (h : Registered ended t) (hu : Sheds t u) : Registered ended u := by
  have hsound : u.source.Sound := h.sound.of_sublist hu.source.1 hu.source.2
  cases hu with
  | noted departures counts hrebuilds => exact h.of_same rfl rfl rfl
  | retired path => exact h.of_same (by simp) (by simp) (by simp)
  | drained id => exact h.of_same (by simp) (by simp) (by simp)
  | gaveUp hget =>
    refine h.without hget (by simp) hsound fun watch hwatch hne => ?_
    rw [source_withoutRoot]
    exact mem_live_relinquished hwatch hne
  | freed hget hdraining counts hrebuilds =>
    exact h.without hget (by simp) hsound fun watch hwatch _ => by simpa using hwatch

theorem live_of_subset (h : Registered ended t) (hlive : t.source.live ⊆ source.live) :
    ∀ entry ∈ t.table.entries, source.isLive entry.id = true ∨ ended = some entry.id := by
  intro entry hentry
  refine (h.live entry hentry).imp_left fun hentry => ?_
  obtain ⟨directory, hwatch⟩ := Source.isLive_iff.mp hentry
  exact Source.isLive_iff.mpr ⟨directory, hlive hwatch⟩

theorem of_gathers (h : Registered ended t) (hu : Gathers tree fits t u) : Registered ended u := by
  cases hu with
  | noted counts hrebuilds => exact h.of_same rfl rfl rfl
  | retired path => exact h.of_same (by simp) (by simp) (by simp)
  | requested hadd hentry =>
    exact ⟨h.sound.add hadd, h.ids, h.bound, h.live_of_subset (Source.live_subset_of_add hadd)⟩
  | @entered path id source slot table hadd hslot hinsert hfits =>
    have hperm := WatchTable.entries_insert? hinsert
    obtain ⟨directory, -, hwatch⟩ := Source.mem_live_of_add hadd
    have hbound : id.isUnbound = false := (h.sound.add hadd).isUnbound hwatch
    have hnew : id ∉ t.table.entries.map (·.id) := by
      intro hmem
      obtain ⟨entry, hentry, hid⟩ := List.mem_map.mp hmem
      have hsome := WatchTable.slotOf?_isSome_iff.mpr ⟨hbound, entry, hentry, hid⟩
      simp [hslot] at hsome
    refine ⟨h.sound.add hadd, ?_, ?_, ?_⟩
    · exact (hperm.map (·.id)).nodup_iff.mpr (List.nodup_cons.mpr ⟨hnew, h.ids⟩)
    · intro entry hentry
      rcases List.mem_cons.mp (hperm.mem_iff.mp hentry) with rfl | hentry
      · exact hbound
      · exact h.bound entry hentry
    · intro entry hentry
      rcases List.mem_cons.mp (hperm.mem_iff.mp hentry) with rfl | hentry
      · exact .inl (Source.isLive_iff.mpr ⟨directory, hwatch⟩)
      · exact h.live_of_subset (Source.live_subset_of_add hadd) entry hentry
  | @moved source target hheld hfits =>
    have hids := WatchTable.ids_relocate t.table source target
    have hrelocated : Registered ended { t with table := t.table.relocate source target } := by
      refine ⟨h.sound, hids ▸ h.ids, fun entry hentry => ?_, fun entry hentry => ?_⟩
      all_goals
        obtain ⟨before, hbefore, hid⟩ := List.mem_map.mp (hids ▸ List.mem_map_of_mem hentry)
        rw [← hid]
      · exact h.bound before hbefore
      · exact h.live before hbefore
    exact hrelocated.of_same (by simp) (by simp) (by simp)

theorem of_bare (hsound : t.source.Sound) (hentries : t.table.entries = []) : Registered none t :=
  ⟨hsound, by simp [hentries], by simp [hentries], by simp [hentries]⟩

theorem fresh (roots : Roots) (policy : Policy) (hlive : source.live = []) :
    Registered none (ofRoots source roots policy) :=
  .of_bare (.of_live_eq_nil hlive) rfl

theorem weaken (h : Registered none t) (ended : Option WatchId) : Registered ended t :=
  { h with live := fun entry hentry => .inl ((h.live entry hentry).resolve_right (by simp)) }

theorem ne_of_slotOf?_eq_none {id : WatchId} (h : Registered ended t)
    (hslot : t.table.slotOf? id = none) (hentry : entry ∈ t.table.entries) : entry.id ≠ id := by
  rintro rfl
  rcases WatchTable.slotOf?_eq_none_iff.mp hslot with hunbound | hnone
  · rw [h.bound entry hentry] at hunbound
    exact Bool.false_ne_true hunbound
  · exact hnone entry hentry rfl

/-- Once the end of a watch is taken in, every entry has a live watch again. -/
theorem close {id : WatchId} (h : Registered (some id) t) : Registered none (t.ended id) := by
  obtain ⟨hu, hslot⟩ | ⟨slot, entry, hget, rfl, hu⟩ := ended_eq_or t id
  · rw [hu]
    refine ⟨h.sound, h.ids, h.bound, fun entry hentry => .inl ?_⟩
    exact (h.live entry hentry).resolve_right fun heq =>
      h.ne_of_slotOf?_eq_none hslot hentry (Option.some.inj heq).symm
  · have hwithout : Registered (some entry.id) (t.ended entry.id) :=
      h.without hget (by simp [hu]) (by simpa using h.sound) fun watch hwatch _ => by
        simpa using hwatch
    refine { hwithout with live := fun other hother => ?_ }
    refine .inl ((hwithout.live other hother).resolve_right fun heq => ?_)
    rw [hu, table_withoutRoot] at hother
    exact ((WatchTable.mem_entries_erase_iff h.ids hget).mp hother).2 (Option.some.inj heq).symm

theorem wiped (h : Registered ended t) : Registered none t.wiped where
  sound := h.sound.of_sublist (List.nil_sublist _) rfl
  ids := by simp
  bound := by simp
  live := by simp

theorem stable (ended : Option WatchId) : Stable (Registered ended) :=
  ⟨of_sheds, of_gathers, fun h => h.wiped.weaken ended⟩

theorem ends_handle (h : Registered (if event.kind = .ignored then some event.watch else none) t) :
    (handle event).Ends moment t (fun _ u => Registered none u)
      fun fault u => Registered none u ∨ ∃ capacity, fault = .noRoom capacity := by
  apply (stable _).ends_handle h
  · intro hkind u hu
    rwa [if_neg hkind] at hu
  · intro hkind u _ hu
    rw [if_pos hkind] at hu
    exact hu.close

theorem take (h : Registered none t) (hnext : t.source.next? = some (event, source)) :
    Registered (if event.kind = .ignored then some event.watch else none) { t with source } := by
  obtain ⟨rest, -, -, hlive, hnextId, -⟩ := Source.next?_eq_some hnext
  by_cases hkind : event.kind = .ignored
  · rw [if_pos hkind] at hlive ⊢
    refine ⟨h.sound.of_sublist (hlive ▸ List.filter_sublist) hnextId, h.ids, h.bound, ?_⟩
    intro entry hentry
    obtain ⟨directory, hwatch⟩ := Source.isLive_iff.mp ((h.live entry hentry).resolve_right
      (by simp))
    by_cases hid : entry.id = event.watch
    · exact .inr (congrArg some hid.symm)
    · refine .inl (Source.isLive_iff.mpr ⟨directory, ?_⟩)
      rw [hlive]
      exact Source.mem_live_forget.mpr ⟨hwatch, hid⟩
  · rw [if_neg hkind] at hlive ⊢
    exact ⟨h.sound.of_sublist (hlive ▸ List.Sublist.refl _) hnextId, h.ids, h.bound,
      h.live_of_subset (hlive ▸ List.Subset.refl _)⟩

end Registered

/-- Every step that finds room keeps the entries in order, whatever it is. -/
theorem Registered.after {transition : Transition} (h : Registered none transition.before)
    (hroom : transition.FindsRoom) : Registered none transition.after :=
  (stable none).after h hroom (fun h hlive hnextId => h.of_same hlive hnextId rfl)
    (fun _ _ hnext => (h.take hnext).ends_handle) fun _ _ => (h.weaken _).ends_handle

/-- Every live watch has an entry or is on its way out. -/
def Accounted (t : Tracker) : Prop := ∀ watch ∈ t.source.live, t.Accounts watch.1

namespace Accounted

theorem of_keeps (h : t.Accounted) (hu : Keeps t u) : u.Accounted := fun watch hwatch =>
  (hu.live watch hwatch).elim (fun hbefore => hu.accounts _ (h watch hbefore)) fun hnew => hnew

theorem stable : Stable Accounted where
  sheds h hu := h.of_keeps (.of_sheds hu)
  gathers h hu := h.of_keeps (.of_gathers hu)
  wiped _ := by simp [Accounted, Tracker.wiped, cleared]

theorem ends_handle (h : t.Accounted)
    (hgone : event.kind = .ignored → ∀ watch ∈ t.source.live, watch.1 ≠ event.watch) :
    (handle event).Ends moment t (fun _ u => u.Accounted)
      fun fault u => u.Accounted ∨ ∃ capacity, fault = .noRoom capacity := by
  apply stable.ends_handle h
  · exact fun _ _ hu => hu
  · intro hkind u hshed hu watch hwatch
    rw [source_ended] at hwatch
    exact accounts_ended (hgone hkind watch (hshed.source.1.subset hwatch)) (hu watch hwatch)

theorem after {transition : Transition} (h : transition.before.Accounted)
    (hroom : transition.FindsRoom) (hqueue : transition.TakesFromQueue) :
    transition.after.Accounted := by
  apply stable.after h hroom
  · intro t source h hlive _ watch hwatch
    exact h watch (hlive ▸ hwatch)
  · intro event source hnext
    obtain ⟨rest, -, -, hlive, -, -⟩ := Source.next?_eq_some hnext
    apply ends_handle
    · exact fun watch hwatch => h watch (Source.live_subset_of_next? hnext hwatch)
    · intro hkind watch hwatch
      rw [hlive, if_pos hkind] at hwatch
      exact (Source.mem_live_forget.mp hwatch).2
  · intro event hstep
    simp [Transition.TakesFromQueue, hstep] at hqueue

end Accounted

section Runs

variable {history : List Transition}

/-- Whatever the file tree, the queue and refusals do, the watches in the table are different, they
are live, and there is no other live watch but those on their way out. -/
theorem every_watch_is_accounted_for {roots : Roots} {policy : Policy} (hlive : source.live = [])
    (h : Run (fun transition => transition.FindsRoom ∧ transition.TakesFromQueue)
      (ofRoots source roots policy) history t) :
    (t.table.entries.map (·.id)).Nodup ∧
      (∀ entry ∈ t.table.entries, t.source.isLive entry.id = true) ∧
      ∀ watch ∈ t.source.live,
        (∃ entry ∈ t.table.entries, entry.id = watch.1) ∨ watch.1 ∈ t.draining := by
  have hregistered : Registered none t :=
    h.keeps (.fresh roots policy hlive) fun transition hadmits ht => ht.after hadmits.1
  have haccounted : t.Accounted :=
    h.keeps (by simp [Accounted, ofRoots, hlive]) fun transition hadmits ht =>
      ht.after hadmits.1 hadmits.2
  refine ⟨hregistered.ids, fun entry hentry => ?_, fun watch hwatch => ?_⟩
  · exact (hregistered.live entry hentry).resolve_right (by simp)
  · exact (haccounted watch hwatch).imp_left fun hslot =>
      (WatchTable.slotOf?_isSome_iff.mp hslot).2

/-- A watch is refused halfway through a walk, an end is announced that is none, and starting over
is refused; the last look finds the tree covered again. -/
theorem every_watch_is_accounted_for_of_refusals :
    let tree : FileTree :=
      ⟨[([[114]], .directory 1), ([[114], [97]], .directory 2), ([[114], [98]], .directory 3)], 4⟩
    let refused : Path := FileTree.pathOf [[114], [98]]
    let steps : List (Moment × Step) :=
      [.regulate [refused] true, .start, .regulate [] true,
        .push ⟨⟨1⟩, .create, true, none, some [98]⟩, .pump, .push (.onWatch ⟨2⟩ .ignored), .pump,
        .rebuild, .regulate [] false, .check, .rebuild].map
        fun step => (⟨tree, 0⟩, step)
    let t := ofRoots .empty ⟨[some ⟨FileTree.pathOf [[114]], 1⟩], 0⟩ ⟨true, .rescan⟩
    ((transitions t steps).filter fun transition => !decide transition.Succeeds).length = 2 ∧
      ((outcome t steps).table.entries.map (·.id)).Nodup := by
  intro tree refused steps t
  have hrun : Run (fun transition => transition.FindsRoom ∧ transition.TakesFromQueue) t
      (transitions t steps) (outcome t steps) := run_transitions (by decide +kernel)
  exact ⟨by decide +kernel, (every_watch_is_accounted_for rfl hrun).1⟩

end Runs

end Tracker

end TreeWatch
