import TreeWatch.Proofs.WatchTable.Entries
import TreeWatch.Proofs.Tracker.Requests

/-!
# Giving up entries

What is left after entries were given up: their slots are free and the roots at their paths are
retired. The watches that were not on their way out before are gone from the source, whose queue
announces the end of each in turn, and are on their way out now.
-/

namespace TreeWatch

namespace Tracker

variable {t u v : Tracker} {slot : Nat} {entry : Entry} {first second : List Entry} {path : Path}

section Slots

theorem get?_givenUp (t : Tracker) (slot other : Nat) :
    (t.givenUp slot).table.get? other = if other = slot then none else t.table.get? other := by
  cases hget : t.table.get? slot with
  | none =>
    rw [givenUp_of_free hget]
    split
    · next heq => rw [heq, hget]
    · rfl
  | some entry => rw [givenUp_of_get? hget, table_withoutRoot, WatchTable.get?_erase]

theorem get?_givenUpAll (t : Tracker) (slots : List Nat) (other : Nat) :
    (t.givenUpAll slots).table.get? other = if other ∈ slots then none else t.table.get? other := by
  induction slots generalizing t with
  | nil => rfl
  | cons slot rest ih =>
    have hrest : (t.givenUpAll (slot :: rest)).table.get? other =
        ((t.givenUp slot).givenUpAll rest).table.get? other := rfl
    rw [hrest, ih, get?_givenUp]
    by_cases heq : other = slot <;> by_cases hmem : other ∈ rest <;> simp [heq, hmem]

theorem get?_withoutSubtree :
    (t.withoutSubtree path).table.get? slot = some entry ↔
      t.table.get? slot = some entry ∧ entry.path.isBelow path = false := by
  rw [withoutSubtree, get?_givenUpAll]
  split
  · next hslot =>
    obtain ⟨found, hfound, hbelow⟩ := WatchTable.mem_slotsBelow_iff.mp hslot
    rw [hfound, Option.some.injEq]
    constructor
    · intro h
      cases h
    · rintro ⟨rfl, hnot⟩
      exact absurd hbelow (Bool.eq_false_iff.mp hnot)
  · next hslot =>
    refine ⟨fun h => ⟨h, Bool.eq_false_iff.mpr fun hbelow => hslot ?_⟩, And.left⟩
    exact WatchTable.mem_slotsBelow_iff.mpr ⟨entry, h, hbelow⟩

theorem isBelow_eq_false_of_withoutSubtree
    (hentry : entry ∈ (t.withoutSubtree path).table.entries) :
    entry.path.isBelow path = false := by
  obtain ⟨slot, hget⟩ := WatchTable.exists_get?_of_mem_entries hentry
  exact (get?_withoutSubtree.mp hget).2

end Slots

/-- The watches of some entries that are not on their way out yet. -/
def outgoing (t : Tracker) (dropped : List Entry) : List WatchId :=
  (dropped.map (·.id)).filter fun id => !t.isDraining id

/-- `u` is `t` without some entries, which were given up in their order. Some of their watches were
still there and left the source for this. -/
structure Relinquishes (t : Tracker) (dropped : List Entry) (left : List WatchId) (u : Tracker) :
    Prop where
  entries : t.table.entries.Perm (dropped ++ u.table.entries)
  source : u.source = t.source.without left
  draining : u.draining = t.draining ++ left
  roots : u.roots = t.roots.retireAll (dropped.map (·.path))
  counted : u.counts.rootsRetired + u.roots.liveCount = t.counts.rootsRetired + t.roots.liveCount
  rest : u = { t with
    source := u.source
    table := u.table
    draining := u.draining
    roots := u.roots
    counts := { t.counts with rootsRetired := u.counts.rootsRetired } }

namespace Relinquishes

variable {left more : List WatchId}

theorem nil (t : Tracker) : Relinquishes t [] [] t :=
  ⟨List.Perm.refl _, (Source.without_nil _).symm, (List.append_nil _).symm, rfl, rfl, rfl⟩

theorem append (h : Relinquishes t first left u) (h' : Relinquishes u second more v) :
    Relinquishes t (first ++ second) (left ++ more) v where
  entries := by
    rw [List.append_assoc]
    exact h.entries.trans (h'.entries.append_left first)
  source := by rw [h'.source, h.source, Source.without_append]
  draining := by rw [h'.draining, h.draining, List.append_assoc]
  roots := by rw [h'.roots, h.roots, List.map_append, Roots.retireAll_append]
  counted := h'.counted.trans h.counted
  rest := by rw [h'.rest, h.rest]

theorem givenUp (hget : t.table.get? slot = some entry)
    (hlive : t.isDraining entry.id = false → t.source.isLive entry.id = true) :
    Relinquishes t [entry] (t.outgoing [entry]) (t.givenUp slot) := by
  have hperm : t.table.entries.Perm ([entry] ++ (t.givenUp slot).table.entries) := by
    rw [givenUp_of_get? hget, table_withoutRoot]
    exact WatchTable.entries_erase hget
  have hrelinquished : t.relinquished entry.id = { t with
      source := t.source.without (t.outgoing [entry])
      draining := t.draining ++ t.outgoing [entry] } := by
    rw [relinquished, outgoing, List.map_singleton]
    cases hdraining : t.isDraining entry.id with
    | true => simp [hdraining]
    | false =>
      have hnot : (t.released entry.id).isDraining entry.id = false := by
        rw [← hdraining, released, Source.remove_of_isLive (hlive hdraining)]
        rfl
      rw [if_neg (by simp), drained, hnot, released, Source.remove_of_isLive (hlive hdraining)]
      simp [hdraining]
  refine ⟨hperm, ?_, ?_, ?_, ?_, ?_⟩
  · rw [givenUp_of_get? hget, source_withoutRoot, hrelinquished]
  · rw [givenUp_of_get? hget, draining_withoutRoot, hrelinquished]
  · rw [givenUp_of_get? hget, roots_withoutRoot, hrelinquished]
    rfl
  · rw [givenUp_of_get? hget, rootsRetired_withoutRoot, hrelinquished]
  · rw [givenUp_of_get? hget, withoutRoot_eq, hrelinquished]

theorem isLive (h : Relinquishes t first left u) {id : WatchId} (hid : id ∉ left) :
    u.source.isLive id = t.source.isLive id := by
  rw [h.source, Source.isLive_without]
  simp [hid]

theorem isDraining (h : Relinquishes t first left u) {id : WatchId} (hid : id ∉ left) :
    u.isDraining id = t.isDraining id := by
  rw [Tracker.isDraining, h.draining, Tracker.isDraining, List.contains_append]
  simp [hid]

/-- The watches of the entries given up are all on their way out, whether they were before or
not. -/
theorem mem_draining (h : Relinquishes t first (t.outgoing first) u) (hentry : entry ∈ first) :
    entry.id ∈ u.draining := by
  rw [h.draining, List.mem_append]
  cases hdraining : t.isDraining entry.id with
  | true => exact .inl (List.contains_iff_mem.mp hdraining)
  | false => exact .inr (List.mem_filter.mpr ⟨List.mem_map_of_mem hentry, by rw [hdraining]; rfl⟩)

theorem givenUpAll (slots : List Nat) (hnodup : slots.Nodup)
    (hids : (t.table.entries.map (·.id)).Nodup)
    (hslots : ∀ slot ∈ slots, ∃ entry, t.table.get? slot = some entry ∧
      (t.isDraining entry.id = false → t.source.isLive entry.id = true)) :
    Relinquishes t (slots.filterMap t.table.get?) (t.outgoing (slots.filterMap t.table.get?))
      (t.givenUpAll slots) := by
  induction slots generalizing t with
  | nil => exact nil t
  | cons slot rest ih =>
    obtain ⟨entry, hget, hlive⟩ := hslots slot List.mem_cons_self
    have hfirst := givenUp hget hlive
    have hother : ∀ other ∈ rest, (t.givenUp slot).table.get? other = t.table.get? other := by
      intro other hmem
      have hne : other ≠ slot := fun heq => (List.nodup_cons.mp hnodup).1 (heq ▸ hmem)
      rw [get?_givenUp, if_neg hne]
    have hperm := (hfirst.entries.map (·.id)).nodup_iff.mp hids
    rw [List.singleton_append, List.map_cons, List.nodup_cons] at hperm
    -- what comes later has another watch, so that nothing changes for it
    have hapart : ∀ other ∈ rest, ∀ found, t.table.get? other = some found →
        found.id ∉ t.outgoing [entry] := by
      intro other hmem found hfound hid
      have heq : found.id = entry.id := by simpa using (List.mem_filter.mp hid).1
      exact hperm.1 (heq ▸ List.mem_map.mpr
        ⟨found, WatchTable.mem_entries_of_get? ((hother other hmem).trans hfound), rfl⟩)
    have hrest := ih (List.nodup_cons.mp hnodup).2 hperm.2 fun other hmem => by
      obtain ⟨found, hfound, hliveFound⟩ := hslots other (List.mem_cons_of_mem _ hmem)
      refine ⟨found, (hother other hmem).trans hfound, ?_⟩
      rw [hfirst.isDraining (hapart other hmem found hfound),
        hfirst.isLive (hapart other hmem found hfound)]
      exact hliveFound
    have hdropped : rest.filterMap (t.givenUp slot).table.get? = rest.filterMap t.table.get? :=
      List.filterMap_congr hother
    have houtgoing : (t.givenUp slot).outgoing (rest.filterMap t.table.get?) =
        t.outgoing (rest.filterMap t.table.get?) := by
      refine List.filter_congr fun id hid => ?_
      obtain ⟨found, hfound, rfl⟩ := List.mem_map.mp hid
      obtain ⟨other, hmem, hgetOther⟩ := List.mem_filterMap.mp hfound
      rw [hfirst.isDraining (hapart other hmem found hgetOther)]
    rw [hdropped, houtgoing] at hrest
    have hall := hfirst.append hrest
    rwa [outgoing, outgoing, ← List.filter_append, ← List.map_append, List.singleton_append,
      ← List.filterMap_cons_some hget] at hall

end Relinquishes

/-- `u` is `t` without some entries, which were given up in their order, and none of whose watches
was on its way out before. -/
structure GivesUp (t : Tracker) (dropped : List Entry) (u : Tracker) : Prop where
  entries : t.table.entries.Perm (dropped ++ u.table.entries)
  live : u.source.live = t.source.live.filter fun watch => !(dropped.map (·.id)).contains watch.1
  queue : u.source.queue = t.source.queue ++ dropped.map fun entry => .onWatch entry.id .ignored
  draining : u.draining = t.draining ++ dropped.map (·.id)
  roots : u.roots.live =
    dropped.foldl (fun live entry => live.eraseP (·.path.same entry.path)) t.roots.live
  nextId : u.source.nextId = t.source.nextId
  refused : u.source.refused = t.source.refused
  departures : u.departures = t.departures

/-- Giving up a subtree gives up the entries at and below its path. -/
theorem relinquishes_withoutSubtree (path : Path) (hids : (t.table.entries.map (·.id)).Nodup)
    (hlive : ∀ entry ∈ t.table.entries, t.isDraining entry.id = false →
      t.source.isLive entry.id = true) :
    Relinquishes t (t.table.entries.filter (·.path.isBelow path))
      (t.outgoing (t.table.entries.filter (·.path.isBelow path))) (t.withoutSubtree path) := by
  rw [← WatchTable.filterMap_slotsBelow]
  refine Relinquishes.givenUpAll _ (WatchTable.nodup_slotsBelow _ _) hids fun slot hslot => ?_
  obtain ⟨entry, hget, -⟩ := WatchTable.mem_slotsBelow_iff.mp hslot
  exact ⟨entry, hget, hlive entry (WatchTable.mem_entries_of_get? hget)⟩

theorem exists_givesUp (path : Path) (hids : (t.table.entries.map (·.id)).Nodup)
    (hlive : ∀ entry ∈ t.table.entries, t.source.isLive entry.id = true)
    (hdraining : ∀ entry ∈ t.table.entries, entry.id ∉ t.draining) :
    ∃ dropped, GivesUp t dropped (t.withoutSubtree path) ∧
      ∀ entry, entry ∈ dropped ↔ entry ∈ t.table.entries ∧ entry.path.isBelow path = true := by
  have h := relinquishes_withoutSubtree path hids fun entry hentry _ => hlive entry hentry
  have houtgoing : t.outgoing (t.table.entries.filter (·.path.isBelow path)) =
      (t.table.entries.filter (·.path.isBelow path)).map (·.id) := by
    refine List.filter_eq_self.mpr fun id hid => ?_
    obtain ⟨entry, hentry, rfl⟩ := List.mem_map.mp hid
    simpa [isDraining] using hdraining entry (List.mem_filter.mp hentry).1
  rw [houtgoing] at h
  refine ⟨_, ⟨h.entries, ?_, ?_, h.draining, ?_, ?_, ?_, ?_⟩, fun _ => List.mem_filter⟩
  · rw [h.source]
    rfl
  · rw [h.source, Source.without, List.map_map]
    rfl
  · rw [h.roots, Roots.live_retireAll, List.foldl_map]
  · rw [h.source]
    rfl
  · rw [h.source]
    rfl
  · rw [h.rest]

end Tracker

end TreeWatch
