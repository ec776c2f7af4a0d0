import TreeWatch.Proofs.Tracker.Changes

/-!
# Watches are accounted for

A watch is accounted for while it has a slot or is on its way out. Handling loses no watch from
account: an entry that is given up leaves its watch on its way out, and a watch that is asked for
gets an entry. Only the event that announces the end of a watch takes it off, and no event that
needs the watch comes after that one. So an event that needs a slot always finds it, and the table
is never distrusted for an unknown watch.
-/

namespace TreeWatch

namespace Tracker

variable {tree : FileTree} {fits : Path → Prop} {t u v : Tracker} {path : Path} {slot : Nat}
  {id : WatchId}

/-- A watch has a slot or is on its way out. -/
def Accounts (t : Tracker) (id : WatchId) : Prop :=
  (t.table.slotOf? id).isSome = true ∨ id ∈ t.draining

/-- What handling may do to a tracker: watches stay accounted for, new ones are, and no event is
queued but for the end of a watch. -/
structure Keeps (t u : Tracker) : Prop where
  accounts : ∀ id, t.Accounts id → u.Accounts id
  live : ∀ watch ∈ u.source.live, watch ∈ t.source.live ∨ u.Accounts watch.1
  queue : ∃ more, u.source.queue = t.source.queue ++ more ∧ ∀ event ∈ more, event.kind = .ignored
  policy : u.policy = t.policy
  rebuilds : u.counts.rebuilds = t.counts.rebuilds

namespace Keeps

theorem of_same (hsource : u.source = t.source) (htable : u.table = t.table)
    (hdraining : u.draining = t.draining) (hpolicy : u.policy = t.policy)
    (hrebuilds : u.counts.rebuilds = t.counts.rebuilds) : Keeps t u where
  accounts id := by simp [Accounts, htable, hdraining]
  live watch h := .inl (hsource ▸ h)
  queue := ⟨[], by simp [hsource]⟩
  policy := hpolicy
  rebuilds := hrebuilds

theorem refl (t : Tracker) : Keeps t t := of_same rfl rfl rfl rfl rfl

theorem trans (h : Keeps t u) (h' : Keeps u v) : Keeps t v where
  accounts id hid := h'.accounts id (h.accounts id hid)
  live watch hwatch := by
    rcases h'.live watch hwatch with hu | hv
    · exact (h.live watch hu).imp_right (h'.accounts _)
    · exact .inr hv
  queue := by
    obtain ⟨more, hmore, hkind⟩ := h.queue
    obtain ⟨last, hlast, hkind'⟩ := h'.queue
    refine ⟨more ++ last, by rw [hlast, hmore, List.append_assoc], ?_⟩
    intro event hmem
    rcases List.mem_append.mp hmem with hmem | hmem
    · exact hkind event hmem
    · exact hkind' event hmem
  policy := h'.policy.trans h.policy
  rebuilds := h'.rebuilds.trans h.rebuilds

theorem withoutRoot (t : Tracker) (path : Path) : Keeps t (t.withoutRoot path) :=
  of_same (by simp) (by simp) (by simp) (by simp) (by simp)

theorem drained (t : Tracker) (id : WatchId) : Keeps t (t.drained id) where
  accounts other := Or.imp (by simp) fun h => mem_draining_drained.mpr (.inr h)
  live watch h := .inl (by simpa using h)
  queue := ⟨[], by simp⟩
  policy := by simp
  rebuilds := by simp

theorem released (t : Tracker) (id : WatchId) : Keeps t (t.released id) := by
  unfold Tracker.released
  split
  · next source hremove =>
    obtain ⟨-, rfl⟩ := Source.remove_eq_ok_iff.mp hremove
    refine ⟨fun other h => h, fun watch h => .inl (Source.mem_live_forget.mp h).1, ?_, rfl, rfl⟩
    exact ⟨[.onWatch id .ignored], rfl, by simp [Event.onWatch]⟩
  · exact refl t

theorem erase {entry : Entry} (hget : t.table.get? slot = some entry)
    (hdraining : entry.id ∈ t.draining) (counts : Counts)
    (hrebuilds : counts.rebuilds = t.counts.rebuilds) :
    Keeps t { t with table := t.table.erase slot, counts } where
  accounts other h := by
    by_cases hid : other = entry.id
    · exact .inr (hid ▸ hdraining)
    · exact h.imp_left (WatchTable.slotOf?_erase_isSome hget hid)
  live watch h := .inl h
  queue := ⟨[], by simp⟩
  policy := rfl
  rebuilds := hrebuilds

theorem relinquished (t : Tracker) (id : WatchId) : Keeps t (t.relinquished id) := by
  unfold Tracker.relinquished
  split
  · exact refl t
  · exact (released t id).trans (drained _ id)

theorem relocate (t : Tracker) (source target : Path) :
    Keeps t { t with table := t.table.relocate source target } where
  accounts other := Or.imp_left fun h => by rwa [WatchTable.slotOf?_relocate_isSome]
  live watch h := .inl h
  queue := ⟨[], by simp⟩
  policy := rfl
  rebuilds := rfl

/-- A tracker with a watch that it asked for, once the watch is accounted for. -/
theorem of_add {tree : FileTree} {source : Source}
    (hadd : t.source.add tree path = .ok (id, source))
    (hslot : id.isUnbound = false → u.Accounts id) (hsource : u.source = source)
    (haccounts : ∀ other, t.Accounts other → u.Accounts other) (hpolicy : u.policy = t.policy)
    (hrebuilds : u.counts.rebuilds = t.counts.rebuilds) : Keeps t u where
  accounts := haccounts
  live watch hwatch := by
    rw [hsource] at hwatch
    obtain ⟨-, directory, -, ⟨-, rfl⟩ | ⟨-, rfl, rfl⟩⟩ := Source.add_eq_ok_iff.mp hadd
    · exact .inl hwatch
    · rcases List.mem_append.mp hwatch with hwatch | hwatch
      · exact .inl hwatch
      · obtain rfl := List.mem_singleton.mp hwatch
        exact .inr (hslot (Source.isUnbound_ofNat _))
  queue := by
    refine ⟨[], ?_, by simp⟩
    rw [hsource, List.append_nil]
    obtain ⟨-, directory, -, ⟨-, rfl⟩ | ⟨-, -, rfl⟩⟩ := Source.add_eq_ok_iff.mp hadd <;> rfl
  policy := hpolicy
  rebuilds := hrebuilds

theorem of_sheds (h : Sheds t u) : Keeps t u := by
  cases h with
  | noted departures counts hrebuilds => exact of_same rfl rfl rfl rfl hrebuilds
  | retired path => exact withoutRoot t path
  | drained id => exact drained t id
  | @gaveUp slot entry hget =>
    have hfreed := erase (t := t.relinquished entry.id) (by simpa using hget)
      mem_draining_relinquished (t.relinquished entry.id).counts rfl
    rw [table_relinquished] at hfreed
    exact ((relinquished t entry.id).trans hfreed).trans (withoutRoot _ entry.path)
  | freed hget hdraining counts hrebuilds =>
    exact (erase hget hdraining counts hrebuilds).trans (withoutRoot _ _)

theorem of_shed (h : Shed t u) : Keeps t u := by
  induction h with
  | refl => exact refl t
  | tail _ hstep ih => exact ih.trans (of_sheds hstep)

theorem received (t : Tracker) (event : Event) : Keeps t (t.received event) :=
  of_shed (shed_received t event)

theorem of_gathers (h : Gathers tree fits t u) : Keeps t u := by
  cases h with
  | noted counts hrebuilds => exact of_same rfl rfl rfl rfl hrebuilds
  | retired path => exact withoutRoot t path
  | requested hadd hentry =>
    exact of_add hadd (fun hbound => .inl (WatchTable.slotOf?_isSome_iff.mpr ⟨hbound, hentry⟩)) rfl
      (fun _ h => h) rfl rfl
  | entered hadd hslot hinsert hfits =>
    have hsome := fun other => @WatchTable.slotOf?_insert?_isSome _ _ _ _ _ other hinsert
    exact of_add hadd (fun hbound => .inl ((hsome _).mpr (.inr ⟨hbound, rfl⟩))) rfl
      (fun other h => h.imp_left fun h => (hsome other).mpr (.inl h)) rfl rfl
  | @moved source target hheld hfits =>
    exact (relocate t source target).trans (withoutRoot _ source)

theorem of_gathered (h : Gathered tree fits t u) : Keeps t u := by
  induction h with
  | refl => exact refl t
  | tail _ hstep ih => exact ih.trans (of_gathers hstep)

end Keeps

theorem rebuilds_of_stalled {fault : Fault} (h : Stalled tree fits t fault u) :
    u.counts.rebuilds = t.counts.rebuilds := by
  obtain ⟨v, hv, ⟨-, rfl⟩ | ⟨-, path, id, source, -, rfl⟩⟩ := h
  · exact (Keeps.of_gathered hv).rebuilds
  · exact (Keeps.of_gathered hv).rebuilds

theorem ends_rebuild_rebuilds {moment : Moment} :
    rebuild.Ends moment t (fun _ u => u.counts.rebuilds = t.counts.rebuilds + 1)
      fun _ u => u = t ∨ u.counts.rebuilds = t.counts.rebuilds + 1 := by
  rw [ends_rebuild]
  split
  · exact .inl rfl
  · exact (gathering_cover t.wiped fun _ _ _ => suits_true).mono
      (fun _ _ hu => (Keeps.of_gathered hu).rebuilds) fun _ _ hu => .inr (rebuilds_of_stalled hu)

/-- The announced end of a watch takes no other watch off account. -/
theorem accounts_ended {other : WatchId} (hne : other ≠ id) (h : t.Accounts other) :
    (t.ended id).Accounts other := by
  have hdraining : other ∈ t.draining → other ∈ (t.ended id).draining := fun hmem => by
    simpa using ⟨hmem, hne⟩
  refine h.imp (fun hslot => ?_) hdraining
  obtain ⟨hu, -⟩ | ⟨slot, entry, hget, hid, hu⟩ := ended_eq_or t id
  · rw [hu]
    exact hslot
  · rw [hu, table_withoutRoot]
    exact WatchTable.slotOf?_erase_isSome hget (hid ▸ hne) hslot

end Tracker

end TreeWatch
