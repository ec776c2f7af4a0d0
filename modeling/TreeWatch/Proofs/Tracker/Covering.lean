import TreeWatch.Proofs.FileTree.Survey
import TreeWatch.Proofs.Source.Directions
import TreeWatch.Proofs.Tracker.Lasting

/-!
# Covering, directory by directory

A subtree is covered by watching the directories that a walk meets, one after the other. What comes
of one of them is one of four things, and entries that have watches of their own tell which: the
directory is gone, it has no entry yet, its entry is in place, or its entry moves and takes along
what is below it.

However paths are mixed up, a directory that was looked up has an entry in the end.
-/

namespace TreeWatch

namespace Tracker

open TreeWatch.Action

variable {moment : Moment} {tree : FileTree} {t u v : Tracker} {path start : Path}
  {paths : List Path} {directory : DirectoryId}

/-- What comes of watching the directory at a path. -/
inductive Watches (tree : FileTree) (path : Path) : Tracker → Tracker → Prop
  | gone {t : Tracker} (hgone : ∀ directory, tree.inspect path ≠ .ok (.directory directory)) :
      Watches tree path t t
  | entered {t : Tracker} {directory : DirectoryId} {id : WatchId} {source : Source} {slot : Nat}
      {table : WatchTable} (hinspect : tree.inspect path = .ok (.directory directory))
      (hadd : t.source.add tree path = .ok (id, source)) (hslot : t.table.slotOf? id = none)
      (hinsert : t.table.insert? id path = some (slot, table)) :
      Watches tree path t { t with source, table }
  | kept {t : Tracker} {directory : DirectoryId} {entry : Entry}
      (hinspect : tree.inspect path = .ok (.directory directory)) (hentry : entry ∈ t.table.entries)
      (hlive : (entry.id, directory) ∈ t.source.live) (hsame : entry.path.same path = true) :
      Watches tree path t t
  | moved {t : Tracker} {directory : DirectoryId} {entry : Entry}
      (hinspect : tree.inspect path = .ok (.directory directory)) (hentry : entry ∈ t.table.entries)
      (hlive : (entry.id, directory) ∈ t.source.live) (hsame : entry.path.same path = false) :
      Watches tree path t
        ({ t with table := t.table.relocate entry.path path }.withoutRoot entry.path)

/-- What comes of watching the directories at some paths, one after the other. -/
inductive WatchesEach (tree : FileTree) : List Path → Tracker → Tracker → Prop
  | nil (t : Tracker) : WatchesEach tree [] t t
  | cons {path : Path} {rest : List Path} {t u v : Tracker} (h : Watches tree path t u)
      (hrest : WatchesEach tree rest u v) : WatchesEach tree (path :: rest) t v

/-- Asking for the directory of an entry changes nothing. -/
theorem Registered.source_eq_of_add {id : WatchId} {source : Source} {entry : Entry}
    (h : Registered none t) (hadd : t.source.add tree path = .ok (id, source))
    (hentry : entry ∈ t.table.entries) (hid : entry.id = id) : source = t.source := by
  obtain ⟨-, directory, -, ⟨-, rfl⟩ | ⟨hnone, rfl, rfl⟩⟩ := Source.add_eq_ok_iff.mp hadd
  · rfl
  · obtain ⟨other, hlive⟩ := Source.isLive_iff.mp ((h.live entry hentry).resolve_right (by simp))
    -- A number that is about to be given out has no watch yet.
    obtain ⟨n, hn, hlt⟩ := h.sound.issued _ hlive
    rw [hid] at hn
    cases hn
    exact absurd hlt (Nat.lt_irrefl _)

theorem Registered.of_watches (h : Registered none t) (hu : Watches tree path t u) :
    Registered none u := by
  cases hu with
  | gone hgone => exact h
  | entered hinspect hadd hslot hinsert =>
    have hentered : Gathers tree (fun _ => True) t _ := .entered hadd hslot hinsert trivial
    exact h.of_gathers hentered
  | kept hinspect hentry hlive hsame => exact h
  | @moved _ entry hinspect hentry hlive hsame =>
    have hheld := WatchTable.holdsPath_iff.mpr ⟨_, hentry, Path.same_refl _⟩
    have hmoved : Gathers tree (fun _ => True) t
        ({ t with table := t.table.relocate entry.path path }.withoutRoot entry.path) :=
      .moved hheld trivial
    exact h.of_gathers hmoved

theorem Registered.of_watchesEach (h : Registered none t) (hu : WatchesEach tree paths t u) :
    Registered none u := by
  induction hu with
  | nil t => exact h
  | cons hstep _ ih => exact ih (h.of_watches hstep)

theorem ends_watchDirectory_watches (h : Registered none t) :
    (watchDirectory path).Ends moment t (fun _ u => Watches moment.tree path t u)
      fun _ _ => True := by
  rw [watchDirectory, ends_bind, ends_requestWatch]
  cases hadd : t.source.add moment.tree path with
  | error error =>
    simp only
    split
    · trivial
    · next hdirectory =>
      exact ends_pure.mpr (.gone fun _ hinspect =>
        hdirectory (FileTree.isDirectory_of_inspect hinspect))
  | ok found =>
    obtain ⟨id, source⟩ := found
    obtain ⟨directory, hinspect, hlive⟩ := Source.mem_live_of_add hadd
    simp only [ends_bind, ends_state]
    cases hslot : t.table.slotOf? id with
    | none =>
      simp only [ends_bind, ends_addEntry]
      cases hinsert : t.table.insert? id path with
      | none => trivial
      | some next => exact ends_pure.mpr (.entered hinspect hadd hslot hinsert)
    | some slot =>
      obtain ⟨entry, hget, rfl⟩ := WatchTable.slotOf?_eq_some hslot
      have hentry := WatchTable.mem_entries_of_get? hget
      obtain rfl := h.source_eq_of_add hadd hentry rfl
      simp only [hget, Option.map_some]
      split
      · next hsame => exact ends_pure.mpr (.kept hinspect hentry hlive hsame)
      · next hsame =>
        simp only [ends_bind, ends_say, ends_moveEntries, ends_retireRoot, ends_pure]
        exact .moved hinspect hentry hlive (Bool.eq_false_iff.mpr hsame)

theorem ends_watchItems_watches {items : List FileTree.WalkItem} (h : Registered none t) :
    (watchItems start items).Ends moment t
      (fun _ u => WatchesEach moment.tree (items.filterMap FileTree.WalkItem.directory?) t u)
      fun _ _ => True := by
  induction items generalizing t with
  | nil => exact .nil t
  | cons item rest ih =>
    cases item with
    | failed path error => exact ends_bind.mpr (ends_say.mpr (ih h))
    | entry path isDirectory =>
      cases isDirectory with
      | false => exact ih h
      | true =>
        rw [watchItems, ends_bind]
        apply (ends_watchDirectory_watches h).imp
        intro watched u hu
        have hrest := (ih (h.of_watches hu)).imp fun _ v hv => WatchesEach.cons hu hv
        split
        · exact ends_bind.mpr hrest
        · exact hrest

/-- The directories that a walk meets, in order. -/
abbrev met (tree : FileTree) (start : Path) : List Path :=
  (tree.walk start).filterMap FileTree.WalkItem.directory?

theorem ends_coverSubtree_watches (h : Registered none t) :
    (coverSubtree path).Ends moment t
      (fun _ u => WatchesEach moment.tree (met moment.tree path) t u)
      fun _ _ => True :=
  ends_coverSubtree.mpr (ends_watchItems_watches h)

theorem mem_filterMap_directory? {items : List FileTree.WalkItem} :
    path ∈ items.filterMap FileTree.WalkItem.directory? ↔ .entry path true ∈ items := by
  rw [List.mem_filterMap]
  constructor
  · rintro ⟨item, hitem, hpath⟩
    unfold FileTree.WalkItem.directory? at hpath
    split at hpath <;> cases hpath
    exact hitem
  · exact fun h => ⟨_, h, rfl⟩

/-- A directory has an entry, whatever its path. -/
def Covered (directory : DirectoryId) (t : Tracker) : Prop :=
  ∃ entry ∈ t.table.entries, (entry.id, directory) ∈ t.source.live

theorem Covered.of_watches (h : Covered directory t) (hu : Watches tree path t u) :
    Covered directory u := by
  obtain ⟨entry, hentry, hlive⟩ := h
  cases hu with
  | gone hgone => exact ⟨entry, hentry, hlive⟩
  | entered hinspect hadd hslot hinsert =>
    exact ⟨entry, (WatchTable.entries_insert? hinsert).mem_iff.mpr (List.mem_cons_of_mem _ hentry),
      Source.live_subset_of_add hadd hlive⟩
  | kept hinspect hmem hlive' hsame => exact ⟨entry, hentry, hlive⟩
  | @moved _ moved hinspect hmem hlive' hsame =>
    refine ⟨WatchTable.movedEntry moved.path path entry, ?_, ?_⟩
    · rw [table_withoutRoot, WatchTable.entries_relocate]
      exact List.mem_map_of_mem hentry
    · rwa [WatchTable.movedEntry_id, source_withoutRoot]

theorem Watches.covered (hu : Watches tree path t u)
    (hinspect : tree.inspect path = .ok (.directory directory)) : Covered directory u := by
  cases hu with
  | gone hgone => exact absurd hinspect (hgone directory)
  | @entered found id source slot table hfound hadd hslot hinsert =>
    obtain ⟨other, hother, hlive⟩ := Source.mem_live_of_add hadd
    obtain rfl := FileTree.eq_of_inspect hother hinspect
    exact ⟨⟨id, path.bounded⟩, (WatchTable.entries_insert? hinsert).mem_iff.mpr List.mem_cons_self,
      hlive⟩
  | @kept found entry hfound hentry hlive hsame =>
    obtain rfl := FileTree.eq_of_inspect hfound hinspect
    exact ⟨entry, hentry, hlive⟩
  | @moved found entry hfound hentry hlive hsame =>
    obtain rfl := FileTree.eq_of_inspect hfound hinspect
    refine ⟨WatchTable.movedEntry entry.path path entry, ?_, ?_⟩
    · rw [table_withoutRoot, WatchTable.entries_relocate]
      exact List.mem_map_of_mem hentry
    · rwa [WatchTable.movedEntry_id, source_withoutRoot]

theorem Covered.of_watchesEach (h : Covered directory t) (hu : WatchesEach tree paths t u) :
    Covered directory u := by
  induction hu with
  | nil t => exact h
  | cons hstep _ ih => exact ih (h.of_watches hstep)

theorem WatchesEach.covered (hu : WatchesEach tree paths t u) (hpath : path ∈ paths)
    (hinspect : tree.inspect path = .ok (.directory directory)) : Covered directory u := by
  induction hu with
  | nil t => cases hpath
  | cons hstep hrest ih =>
    rcases List.mem_cons.mp hpath with rfl | hpath
    · exact (hstep.covered hinspect).of_watchesEach hrest
    · exact ih hpath

/-- Watches and entries that come while directories are watched are for directories at these
paths. -/
structure Provides (tree : FileTree) (paths : List Path) (t u : Tracker) : Prop where
  live : ∀ watch ∈ u.source.live, watch ∈ t.source.live ∨
    ∃ path ∈ paths, tree.inspect path = .ok (.directory watch.2)
  entries : ∀ entry ∈ u.table.entries, (∃ old ∈ t.table.entries, old.id = entry.id) ∨
    ∃ path ∈ paths, ∃ directory, tree.inspect path = .ok (.directory directory) ∧
      (entry.id, directory) ∈ u.source.live
  kept : t.source.live ⊆ u.source.live

theorem Watches.provides (hu : Watches tree path t u) : Provides tree [path] t u := by
  have hsame {u : Tracker} (hsource : u.source = t.source)
      (hids : u.table.entries.map (·.id) = t.table.entries.map (·.id)) : Provides tree [path]
      t u := by
    refine ⟨fun watch hwatch => .inl (hsource ▸ hwatch), fun entry hentry => .inl ?_,
      hsource ▸ List.Subset.refl _⟩
    exact List.mem_map.mp (hids ▸ List.mem_map_of_mem hentry)
  cases hu with
  | gone hgone => exact hsame rfl rfl
  | entered hinspect hadd hslot hinsert =>
    refine ⟨fun watch hwatch => ?_, fun entry hentry => ?_, Source.live_subset_of_add hadd⟩
    · obtain ⟨-, directory, hfound, ⟨-, rfl⟩ | ⟨-, -, rfl⟩⟩ := Source.add_eq_ok_iff.mp hadd
      · exact .inl hwatch
      · rcases Source.mem_live_enrolled.mp hwatch with hwatch | rfl
        · exact .inl hwatch
        · exact .inr ⟨path, List.mem_singleton_self _, hfound⟩
    · rcases List.mem_cons.mp ((WatchTable.entries_insert? hinsert).mem_iff.mp hentry) with
        rfl | hentry
      · obtain ⟨directory, hfound, hlive⟩ := Source.mem_live_of_add hadd
        exact .inr ⟨path, List.mem_singleton_self _, directory, hfound, hlive⟩
      · exact .inl ⟨entry, hentry, rfl⟩
  | kept hinspect hentry hlive hsame' => exact hsame rfl rfl
  | moved hinspect hentry hlive hsame' =>
    exact hsame source_withoutRoot (by rw [table_withoutRoot, WatchTable.ids_relocate])

theorem Provides.trans {front back : List Path} (h : Provides tree front t u)
    (h' : Provides tree back u v) : Provides tree (front ++ back) t v := by
  have hfront {path : Path} (hpath : path ∈ front) : path ∈ front ++ back :=
    List.mem_append_left _ hpath
  have hback {path : Path} (hpath : path ∈ back) : path ∈ front ++ back :=
    List.mem_append_right _ hpath
  refine ⟨fun watch hwatch => ?_, fun entry hentry => ?_, fun watch hwatch =>
    h'.kept (h.kept hwatch)⟩
  · rcases h'.live watch hwatch with hwatch | ⟨path, hpath, hinspect⟩
    · exact (h.live watch hwatch).imp_right fun ⟨path, hpath, hinspect⟩ =>
        ⟨path, hfront hpath, hinspect⟩
    · exact .inr ⟨path, hback hpath, hinspect⟩
  · rcases h'.entries entry hentry with ⟨old, hold, hid⟩ | ⟨path, hpath, found⟩
    · rw [← hid]
      refine (h.entries old hold).imp_right ?_
      rintro ⟨path, hpath, directory, hinspect, hlive⟩
      exact ⟨path, hfront hpath, directory, hinspect, h'.kept hlive⟩
    · exact .inr ⟨path, hback hpath, found⟩

theorem WatchesEach.provides (hu : WatchesEach tree paths t u) : Provides tree paths t u := by
  induction hu with
  | nil t =>
    exact ⟨fun _ => .inl, fun entry hentry => .inl ⟨entry, hentry, rfl⟩, List.Subset.refl _⟩
  | cons hstep _ ih => exact hstep.provides.trans ih

end Tracker

end TreeWatch
