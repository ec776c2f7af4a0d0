import TreeWatch.Proofs.FileTree.Resolution
import TreeWatch.Proofs.WatchTable.Entries
import TreeWatch.Proofs.Tracker.Requests

/-!
# What covering adds

While every live watch of a directory that still stands has its entry at the right path, watching
directories only ever adds: a directory with a watch keeps watch and entry, a directory without one
gets both, and nothing else changes. So covering a subtree comes to the same whatever was covered
before, and it fails only where watches are refused or there is no room.
-/

namespace TreeWatch

namespace Tracker

open TreeWatch.Action FileTree

variable {tree : FileTree} {t u v : Tracker} {location : Location} {directory : DirectoryId}
  {region other : Location → Prop} {m n now : Nat}

/-- Table and source speak of the same directories: entries have live watches of their own, and the
watch of a directory that stands somewhere has its entry under the path of that place. -/
structure Aligned (tree : FileTree) (t : Tracker) : Prop where
  sound : t.source.Sound
  ids : (t.table.entries.map (·.id)).Nodup
  live : ∀ entry ∈ t.table.entries, ∃ directory, (entry.id, directory) ∈ t.source.live
  known : ∀ watch ∈ t.source.live, watch.2 < tree.nextId
  placed : ∀ {id directory location}, (id, directory) ∈ t.source.live →
    tree.get? location = some (.directory directory) → ⟨id, pathOf location⟩ ∈ t.table.entries

theorem Aligned.of_same (h : Aligned tree t) (hsource : u.source = t.source)
    (htable : u.table = t.table) :
    Aligned tree u where
  sound := hsource ▸ h.sound
  ids := htable ▸ h.ids
  live := by rw [hsource, htable]; exact h.live
  known := by rw [hsource]; exact h.known
  placed := by rw [hsource, htable]; exact h.placed

/-- What covering never touches is as before. -/
structure Aside (t u : Tracker) : Prop where
  departures : u.departures = t.departures
  draining : u.draining = t.draining
  policy : u.policy = t.policy

theorem Aside.refl (t : Tracker) : Aside t t := ⟨rfl, rfl, rfl⟩

theorem Aside.trans (h : Aside t u) (h' : Aside u v) : Aside t v :=
  ⟨h'.departures.trans h.departures, h'.draining.trans h.draining, h'.policy.trans h.policy⟩

/-- Everything but source and table is as before. -/
structure Elsewhere (t u : Tracker) : Prop extends Aside t u where
  roots : u.roots = t.roots
  counts : u.counts = t.counts

theorem Elsewhere.refl (t : Tracker) : Elsewhere t t := ⟨Aside.refl t, rfl, rfl⟩

theorem Elsewhere.trans (h : Elsewhere t u) (h' : Elsewhere u v) : Elsewhere t v :=
  ⟨h.toAside.trans h'.toAside, h'.roots.trans h.roots, h'.counts.trans h.counts⟩

/-- The directories of a region that can be looked up are watched, `n` of them anew; of watches and
entries nothing is lost and nothing else is new. -/
structure Grown (tree : FileTree) (region : Location → Prop) (t u : Tracker) (n : Nat) : Prop where
  aligned : Aligned tree u
  queue : u.source.queue = t.source.queue
  refused : u.source.refused = t.source.refused
  step : u.table.step = t.table.step
  nextId : t.source.nextId ≤ u.source.nextId
  live : t.source.live ⊆ u.source.live
  entries : t.table.entries ⊆ u.table.entries
  size : u.table.entries.length = t.table.entries.length + n
  covered : ∀ {location directory}, region location → IsShort location →
    tree.get? location = some (.directory directory) → ∃ id, (id, directory) ∈ u.source.live
  newEntry : ∀ entry ∈ u.table.entries, entry ∈ t.table.entries ∨
    ∃ location directory, region location ∧ IsShort location ∧
      tree.get? location = some (.directory directory) ∧ entry.path = pathOf location ∧
      (entry.id, directory) ∈ u.source.live ∧ (t.source.nextId : Int) ≤ entry.id.raw
  newWatch : ∀ watch ∈ u.source.live, watch ∈ t.source.live ∨
    ∃ location, region location ∧ IsShort location ∧
      tree.get? location = some (.directory watch.2) ∧ ⟨watch.1, pathOf location⟩ ∈ u.table.entries

namespace Grown

theorem refl (h : Aligned tree t) (hcovered : ∀ {location directory}, region location →
    IsShort location → tree.get? location = some (.directory directory) →
    ∃ id, (id, directory) ∈ t.source.live) : Grown tree region t t 0 where
  aligned := h
  queue := rfl
  refused := rfl
  step := rfl
  nextId := Nat.le_refl _
  live := List.Subset.refl _
  entries := List.Subset.refl _
  size := rfl
  covered := hcovered
  newEntry _ hentry := .inl hentry
  newWatch _ hwatch := .inl hwatch

theorem trans (h : Grown tree region t u m) (h' : Grown tree other u v n) :
    Grown tree (fun location => region location ∨ other location) t v (m + n) where
  aligned := h'.aligned
  queue := h'.queue.trans h.queue
  refused := h'.refused.trans h.refused
  step := h'.step.trans h.step
  nextId := Nat.le_trans h.nextId h'.nextId
  live := List.Subset.trans h.live h'.live
  entries := List.Subset.trans h.entries h'.entries
  size := by rw [h'.size, h.size, Nat.add_assoc]
  covered hregion hshort hget := by
    rcases hregion with hregion | hother
    · obtain ⟨id, hid⟩ := h.covered hregion hshort hget
      exact ⟨id, h'.live hid⟩
    · exact h'.covered hother hshort hget
  newEntry entry hentry := by
    rcases h'.newEntry entry hentry with hold | ⟨location, directory, hregion, hshort, hget, hrest⟩
    · refine (h.newEntry entry hold).imp_right ?_
      rintro ⟨location, directory, hregion, hshort, hget, hpath, hlive, hid⟩
      exact ⟨location, directory, .inl hregion, hshort, hget, hpath, h'.live hlive, hid⟩
    · have hnextId := h.nextId
      exact .inr ⟨location, directory, .inr hregion, hshort, hget, hrest.1, hrest.2.1, by omega⟩
  newWatch watch hwatch := by
    rcases h'.newWatch watch hwatch with hold | ⟨location, hregion, hrest⟩
    · refine (h.newWatch watch hold).imp_right ?_
      rintro ⟨location, hregion, hshort, hget, hentry⟩
      exact ⟨location, .inl hregion, hshort, hget, h'.entries hentry⟩
    · exact .inr ⟨location, .inr hregion, hrest⟩

theorem congr (h : Grown tree region t u n) (hregion : ∀ location directory, IsShort location →
    tree.get? location = some (.directory directory) → (region location ↔ other location)) :
    Grown tree other t u n where
  aligned := h.aligned
  queue := h.queue
  refused := h.refused
  step := h.step
  nextId := h.nextId
  live := h.live
  entries := h.entries
  size := h.size
  covered hother hshort hget := h.covered ((hregion _ _ hshort hget).mpr hother) hshort hget
  newEntry entry hentry := by
    refine (h.newEntry entry hentry).imp_right ?_
    rintro ⟨location, directory, hmem, hshort, hget, hrest⟩
    exact ⟨location, directory, (hregion _ _ hshort hget).mp hmem, hshort, hget, hrest⟩
  newWatch watch hwatch := by
    refine (h.newWatch watch hwatch).imp_right ?_
    rintro ⟨location, hmem, hshort, hget, hrest⟩
    exact ⟨location, (hregion _ _ hshort hget).mp hmem, hshort, hget, hrest⟩

theorem of_same {t' u' : Tracker} (h : Grown tree region t u n) (hsource : t'.source = t.source)
    (htable : t'.table = t.table) (hsource' : u'.source = u.source) (htable' : u'.table = u.table) :
    Grown tree region t' u' n where
  aligned := h.aligned.of_same hsource' htable'
  queue := by rw [hsource, hsource', h.queue]
  refused := by rw [hsource, hsource', h.refused]
  step := by rw [htable, htable', h.step]
  nextId := by rw [hsource, hsource']; exact h.nextId
  live := by rw [hsource, hsource']; exact h.live
  entries := by rw [htable, htable']; exact h.entries
  size := by rw [htable, htable', h.size]
  covered := by rw [hsource']; exact h.covered
  newEntry := by rw [hsource, htable, hsource', htable']; exact h.newEntry
  newWatch := by rw [hsource, hsource', htable']; exact h.newWatch

end Grown

/-- Why covering can fail: some watch is refused, or there is no room for one more entry than there
are directories that ever were. -/
def Obstructed (tree : FileTree) (t : Tracker) : Prop :=
  t.source.refused ≠ [] ∨ WatchTable.capacityLimit < tree.nextId + t.table.step

theorem Grown.obstructed (h : Grown tree region t u n) (hu : Obstructed tree u) :
    Obstructed tree t := by
  unfold Obstructed at hu ⊢
  rwa [h.refused, h.step] at hu

section Directories

/-- A directory without a watch leaves room for one more entry. -/
theorem Aligned.length_entries_lt (h : Aligned tree t) (hknown : directory < tree.nextId)
    (hwatch : t.source.watchOf? directory = none) : t.table.entries.length < tree.nextId := by
  have hentries : t.table.entries.length ≤ t.source.live.length := by
    rw [← List.length_map (·.id), ← @List.length_map _ _ t.source.live (·.1)]
    apply h.ids.length_le_of_subset
    intro id hid
    obtain ⟨entry, hentry, rfl⟩ := List.mem_map.mp hid
    obtain ⟨directory, hlive⟩ := h.live entry hentry
    exact List.mem_map.mpr ⟨_, hlive, rfl⟩
  have hlive : (directory :: t.source.live.map (·.2)).length ≤ (List.range tree.nextId).length := by
    refine List.Nodup.length_le_of_subset (List.nodup_cons.mpr ⟨?_, h.sound.directories⟩) ?_
    · intro hmem
      obtain ⟨watch, hmem, heq⟩ := List.mem_map.mp hmem
      exact Source.watchOf?_eq_none_iff.mp hwatch watch hmem heq
    · intro other hother
      rcases List.mem_cons.mp hother with rfl | hother
      · exact List.mem_range.mpr hknown
      · obtain ⟨watch, hmem, rfl⟩ := List.mem_map.mp hother
        exact List.mem_range.mpr (h.known watch hmem)
  simp only [List.length_cons, List.length_map, List.length_range] at hlive
  omega

theorem Aligned.ne_nextId (h : Aligned tree t) {entry : Entry} (hentry : entry ∈ t.table.entries) :
    entry.id ≠ ⟨t.source.nextId⟩ := by
  intro heq
  obtain ⟨other, hother⟩ := h.live entry hentry
  obtain ⟨number, hnumber, hlt⟩ := h.sound.issued _ hother
  have hnext : (number : Int) = t.source.nextId := congrArg WatchId.raw (hnumber.symm.trans heq)
  omega

section Enrolling

variable {slot : Nat} {table : WatchTable} {entry : Entry} {watch : WatchId × DirectoryId}

theorem mem_entries_enrolled_iff (hshort : IsShort location)
    (hinsert : t.table.insert? ⟨t.source.nextId⟩ (pathOf location) = some (slot, table)) :
    entry ∈ table.entries ↔
      entry = ⟨⟨t.source.nextId⟩, pathOf location⟩ ∨ entry ∈ t.table.entries := by
  have hperm := WatchTable.entries_insert? hinsert
  rw [bounded_pathOf hshort] at hperm
  rw [hperm.mem_iff, List.mem_cons]

theorem mem_live_enrolled_iff : watch ∈ (t.source.enrolled directory).live ↔
    watch ∈ t.source.live ∨ watch = (⟨t.source.nextId⟩, directory) := by
  simp [Source.enrolled]

theorem Aligned.enrolled (hwf : tree.WellFormed) (h : Aligned tree t) (hshort : IsShort location)
    (hget : tree.get? location = some (.directory directory))
    (hwatch : t.source.watchOf? directory = none)
    (hinsert : t.table.insert? ⟨t.source.nextId⟩ (pathOf location) = some (slot, table)) :
    Aligned tree { t with source := t.source.enrolled directory, table } where
  sound := h.sound.enrolled hwatch
  ids := by
    rw [((WatchTable.entries_insert? hinsert).map _).nodup_iff, List.map_cons, List.nodup_cons]
    refine ⟨fun hid => ?_, h.ids⟩
    obtain ⟨entry, hentry, heq⟩ := List.mem_map.mp hid
    exact h.ne_nextId hentry heq
  live entry hentry := by
    rcases (mem_entries_enrolled_iff hshort hinsert).mp hentry with rfl | hentry
    · exact ⟨directory, mem_live_enrolled_iff.mpr (.inr rfl)⟩
    · obtain ⟨other, hother⟩ := h.live entry hentry
      exact ⟨other, mem_live_enrolled_iff.mpr (.inl hother)⟩
  known watch hwatch := by
    rcases mem_live_enrolled_iff.mp hwatch with hwatch | rfl
    · exact h.known watch hwatch
    · exact hwf.known hget
  placed hwatch hplace := by
    apply (mem_entries_enrolled_iff hshort hinsert).mpr
    rcases mem_live_enrolled_iff.mp hwatch with hwatch | heq
    · exact .inr (h.placed hwatch hplace)
    · obtain ⟨rfl, rfl⟩ := Prod.mk.inj heq
      exact .inl (by rw [hwf.unique hplace hget])

/-- A tracker after a directory that had no watch got one, and its entry. -/
theorem Aligned.grown_enrolled (hwf : tree.WellFormed) (h : Aligned tree t)
    (hshort : IsShort location) (hget : tree.get? location = some (.directory directory))
    (hwatch : t.source.watchOf? directory = none)
    (hinsert : t.table.insert? ⟨t.source.nextId⟩ (pathOf location) = some (slot, table)) :
    Grown tree (· = location) t { t with source := t.source.enrolled directory, table } 1 where
  aligned := h.enrolled hwf hshort hget hwatch hinsert
  queue := rfl
  refused := rfl
  step := WatchTable.step_insert? hinsert
  nextId := Nat.le_succ _
  live _ hwatch := mem_live_enrolled_iff.mpr (.inl hwatch)
  entries _ hentry := (mem_entries_enrolled_iff hshort hinsert).mpr (.inr hentry)
  size := (WatchTable.entries_insert? hinsert).length_eq
  covered {place other} hplace _ hother := by
    obtain rfl := eq_of_get?_directory hget (hplace ▸ hother)
    exact ⟨_, mem_live_enrolled_iff.mpr (.inr rfl)⟩
  newEntry entry hentry := by
    rcases (mem_entries_enrolled_iff hshort hinsert).mp hentry with rfl | hentry
    · have hnew := @mem_live_enrolled_iff t directory (⟨t.source.nextId⟩, directory)
      exact .inr ⟨location, directory, rfl, hshort, hget, rfl, hnew.mpr (.inr rfl), Int.le_refl _⟩
    · exact .inl hentry
  newWatch watch hwatch := by
    rcases mem_live_enrolled_iff.mp hwatch with hwatch | rfl
    · exact .inl hwatch
    · have hentry := (mem_entries_enrolled_iff hshort hinsert).mpr (.inl rfl)
      exact .inr ⟨location, rfl, hshort, hget, hentry⟩

theorem Aligned.obstructed (hwf : tree.WellFormed) (h : Aligned tree t)
    (hget : tree.get? location = some (.directory directory))
    (hwatch : t.source.watchOf? directory = none)
    (hinsert : t.table.insert? ⟨t.source.nextId⟩ (pathOf location) = none) : Obstructed tree t := by
  refine .inr (Nat.lt_of_not_le fun hle => ?_)
  have hlt := h.length_entries_lt (hwf.known hget) hwatch
  have hroom : t.table.entries.length + t.table.step ≤ WatchTable.capacityLimit := by omega
  have hsome := WatchTable.insert?_isSome hroom ⟨t.source.nextId⟩ (pathOf location)
  rw [hinsert] at hsome
  exact Bool.false_ne_true hsome

end Enrolling

/-- How many directories a watch was made for. -/
def Watched.count : Option Watched → Nat
  | some (.added _) => 1
  | _ => 0

theorem ends_watchDirectory_of_not_short (hwf : tree.WellFormed) (h : Aligned tree t)
    (hget : tree.get? location = some (.directory directory)) (hlong : ¬ IsShort location) :
    (watchDirectory (pathOf location)).Ends ⟨tree, now⟩ t
      (fun watched u => Elsewhere t u ∧ Grown tree (· = location) t u (Watched.count watched))
      fun _ _ => Obstructed tree t := by
  have hplace := hwf.isPlace hget
  have hlinks := hwf.linkFree hget
  have hdir : tree.isDirectory (pathOf location) = false := Bool.eq_false_iff.mpr fun hdir =>
    hlong ((isDirectory_pathOf_iff hwf hplace hlinks).mp hdir).1
  rw [watchDirectory, ends_bind, ends_requestWatch]
  cases hadd : t.source.add tree (pathOf location) with
  | ok found =>
    obtain ⟨other, hother, -⟩ := Source.mem_live_of_add hadd
    exact absurd ((inspect_pathOf_eq_ok_iff hwf hplace hlinks).mp hother).1 hlong
  | error error =>
    simp only [hdir, Bool.false_eq_true, if_false, ends_pure]
    exact ⟨Elsewhere.refl t, Grown.refl h fun hsame hshort _ => absurd (hsame ▸ hshort) hlong⟩

theorem ends_watchDirectory_of_watchOf? (h : Aligned tree t)
    (hget : tree.get? location = some (.directory directory)) {id : WatchId}
    (hadd : t.source.add tree (pathOf location) = .ok (id, t.source))
    (hwatch : t.source.watchOf? directory = some id) :
    (watchDirectory (pathOf location)).Ends ⟨tree, now⟩ t
      (fun watched u => Elsewhere t u ∧ Grown tree (· = location) t u (Watched.count watched))
      fun _ _ => Obstructed tree t := by
  have hmem := Source.watchOf?_eq_some hwatch
  obtain ⟨slot, hslot, hentry⟩ := WatchTable.exists_slotOf? h.ids (h.placed hmem hget)
    (h.sound.isUnbound hmem)
  rw [watchDirectory, ends_bind, ends_requestWatch]
  simp only [hadd, ends_bind, ends_state, hslot, hentry, Option.map_some]
  rw [if_pos (by simp [Path.same]), ends_pure]
  refine ⟨Elsewhere.refl t, Grown.refl h ?_⟩
  rintro place other rfl - hplace
  obtain rfl := eq_of_get?_directory hget hplace
  exact ⟨id, hmem⟩

theorem ends_watchDirectory (hwf : tree.WellFormed) (h : Aligned tree t)
    (hget : tree.get? location = some (.directory directory)) :
    (watchDirectory (pathOf location)).Ends ⟨tree, now⟩ t
      (fun watched u => Elsewhere t u ∧ Grown tree (· = location) t u (Watched.count watched))
      fun _ _ => Obstructed tree t := by
  have hplace := hwf.isPlace hget
  have hlinks := hwf.linkFree hget
  by_cases hshort : IsShort location
  · have hok := (inspect_pathOf_eq_ok_iff hwf hplace hlinks).mpr ⟨hshort, hget⟩
    by_cases hrefused : pathOf location ∈ t.source.refused
    · have hdir := (isDirectory_pathOf_iff hwf hplace hlinks).mpr ⟨hshort, directory, hget⟩
      rw [watchDirectory, ends_bind, ends_requestWatch, Source.add,
        if_pos (by simpa using hrefused)]
      simp only [hdir, if_true]
      exact .inl (List.ne_nil_of_mem hrefused)
    · cases hwatch : t.source.watchOf? directory with
      | some id =>
        have hadd : t.source.add tree (pathOf location) = .ok (id, t.source) :=
          Source.add_eq_ok_iff.mpr ⟨hrefused, directory, hok, .inl ⟨hwatch, rfl⟩⟩
        exact ends_watchDirectory_of_watchOf? h hget hadd hwatch
      | none =>
        have hadd : t.source.add tree (pathOf location) =
            .ok (⟨t.source.nextId⟩, t.source.enrolled directory) :=
          Source.add_eq_ok_iff.mpr ⟨hrefused, directory, hok, .inr ⟨hwatch, rfl, rfl⟩⟩
        have hslot : t.table.slotOf? ⟨t.source.nextId⟩ = none :=
          WatchTable.slotOf?_eq_none_iff.mpr (.inr fun entry => h.ne_nextId)
        rw [watchDirectory, ends_bind, ends_requestWatch]
        simp only [hadd, ends_bind, ends_state, hslot, ends_addEntry]
        cases hinsert : t.table.insert? ⟨t.source.nextId⟩ (pathOf location) with
        | none => exact h.obstructed hwf hget hwatch hinsert
        | some next =>
          exact ⟨⟨⟨rfl, rfl, rfl⟩, rfl, rfl⟩, h.grown_enrolled hwf hshort hget hwatch hinsert⟩
  · exact ends_watchDirectory_of_not_short hwf h hget hshort

end Directories

section Subtrees

variable {item : WalkItem} {rest : List WalkItem}

theorem Grown.skip (hitem : ∀ path, item ≠ .entry path true)
    (h : Grown tree (fun location => .entry (pathOf location) true ∈ rest) t u n) :
    Grown tree (fun location => .entry (pathOf location) true ∈ item :: rest) t u n :=
  h.congr fun location _ _ _ => by
    rw [List.mem_cons, or_iff_right fun heq => hitem _ heq.symm]

/-- A directory that a walk shows is covered, and then what the walk shows behind it. -/
theorem Grown.next (hwf : tree.WellFormed) (hget : tree.get? location = some (.directory directory))
    (h : Grown tree (· = location) t u m)
    (h' : Grown tree (fun location => .entry (pathOf location) true ∈ rest) u v n) :
    Grown tree (fun place =>
      .entry (pathOf place) true ∈ WalkItem.entry (pathOf location) true :: rest) t v (m + n) := by
  refine (h.trans h').congr fun place _ _ hplace => ?_
  rw [List.mem_cons, WalkItem.entry.injEq, pathOf_inj (hwf.isPlace hplace) (hwf.isPlace hget)]
  simp

theorem ends_watchItems (hwf : tree.WellFormed) (start : Path) (items : List WalkItem)
    (hitems : ∀ path, .entry path true ∈ items → ∃ location directory,
      path = pathOf location ∧ tree.get? location = some (.directory directory))
    (h : Aligned tree t) :
    (watchItems start items).Ends ⟨tree, now⟩ t
      (fun n u => Elsewhere t u ∧
        Grown tree (fun location => .entry (pathOf location) true ∈ items) t u n)
      fun _ _ => Obstructed tree t := by
  induction items generalizing t with
  | nil => exact ⟨Elsewhere.refl t, Grown.refl h fun hmem => absurd hmem List.not_mem_nil⟩
  | cons item rest ih =>
    have hrest : ∀ path, .entry path true ∈ rest → ∃ location directory,
        path = pathOf location ∧ tree.get? location = some (.directory directory) :=
      fun path hmem => hitems path (List.mem_cons_of_mem _ hmem)
    cases item with
    | failed path error =>
      rw [watchItems, ends_bind, ends_say]
      exact (ih hrest h).imp fun _ _ => And.imp_right (Grown.skip (by simp))
    | entry path isDirectory =>
      cases isDirectory with
      | false => exact (ih hrest h).imp fun _ _ => And.imp_right (Grown.skip (by simp))
      | true =>
        obtain ⟨place, directory, rfl, hplace⟩ := hitems path (by simp)
        rw [watchItems, ends_bind]
        apply (ends_watchDirectory hwf h hplace).imp
        rintro watched u ⟨helse, hgrown⟩
        have hfollow := ih hrest hgrown.aligned
        have hnext {v : Tracker} {n : Nat} (hv : Elsewhere u v ∧
            Grown tree (fun location => .entry (pathOf location) true ∈ rest) u v n) :=
          And.intro (helse.trans hv.1) (hgrown.next hwf hplace hv.2)
        rcases watched with _ | id | id
        · exact hfollow.mono (fun n v hv => Nat.zero_add n ▸ hnext hv) fun _ _ => hgrown.obstructed
        · simp only [ends_bind, ends_pure]
          exact hfollow.mono (fun n v hv => Nat.add_comm 1 n ▸ hnext hv) fun _ _ =>
            hgrown.obstructed
        · exact hfollow.mono (fun n v hv => Nat.zero_add n ▸ hnext hv) fun _ _ => hgrown.obstructed

/-- Covering a subtree watches the directories at and below its place, if there is no link to
cross. -/
theorem ends_coverSubtree_grown (hwf : tree.WellFormed) (hplace : IsPlace location)
    (hlinks : tree.LinkFree location) (hlink : ∀ target, tree.get? location ≠ some (.link target))
    (h : Aligned tree t) :
    (coverSubtree (pathOf location)).Ends ⟨tree, now⟩ t
      (fun n u => Elsewhere t u ∧ Grown tree (location <+: ·) t u n)
        fun _ _ => Obstructed tree t := by
  rw [ends_coverSubtree]
  refine (ends_watchItems hwf _ _ (fun path hmem => ?_) h).imp fun n u hu => ?_
  · obtain ⟨place, directory, -, hpath, hget⟩ := exists_of_mem_walk hwf hplace hlinks hlink hmem
    exact ⟨place, directory, hpath, hget⟩
  · exact ⟨hu.1, hu.2.congr fun place directory => mem_walk_iff hwf hplace hlinks hlink⟩

end Subtrees

end Tracker

end TreeWatch
