import TreeWatch.Proofs.Tracker.Quiet
import TreeWatch.Proofs.Tracker.Tracking

/-!
# The halves of a rename

What each of the three events of a rename does to a tracker in which no departure waited before: the
first half parks the departure, the second moves the entries along, and the news that a directory
itself was moved counts for roots alone. A root that comes to stand in another watched directory has
no first half, and its entries move when the place at which it arrived is walked.
-/

namespace TreeWatch

namespace Tracker

open TreeWatch.Action FileTree

variable {moment : Moment} {tree : FileTree} {t : Tracker} {now since cookie : Nat} {path : Path}
  {id watch : WatchId} {directory : DirectoryId} {location source : Location} {name : Bytes}

theorem Tracks.idAt? {held : Location → Prop} (hwf : tree.WellFormed) (h : Tracks tree held t)
    (hplace : IsPlace location) (hentry : ⟨id, pathOf location⟩ ∈ t.table.entries) :
    t.table.idAt? (pathOf location) = some id := by
  have hself : (pathOf location).same (pathOf location) = true := by simp [Path.same]
  obtain ⟨slot, hslot⟩ := Option.isSome_iff_exists.mp (WatchTable.holdsPath_iff.mpr ⟨_,
    hentry, hself⟩)
  obtain ⟨⟨other, path⟩, hget, hsame⟩ := WatchTable.slotAt?_eq_some hslot
  obtain ⟨place, directory, rfl, -, hplaceGet, -, hlive⟩ :=
    h.entry (WatchTable.mem_entries_of_get? hget)
  obtain rfl := (same_pathOf_iff (hwf.isPlace hplaceGet) hplace).mp hsame
  have hwatch := (h.watches_iff hwf).mpr ⟨place, hentry, hplaceGet⟩
  simp [WatchTable.idAt?, hslot, hget, h.sound.eq_of_directory hwatch hlive]

theorem add_of_live (hwf : tree.WellFormed) {source : Source} (hsound : source.Sound)
    (hrefused : source.refused = []) (hshort : IsShort location)
    (hget : tree.get? location = some (.directory directory))
    (hlive : (id, directory) ∈ source.live) :
    source.add tree (pathOf location) = .ok (id, source) := by
  have hinspect := (inspect_pathOf_eq_ok_iff hwf (hwf.isPlace hget) (hwf.linkFree hget)).mpr
    ⟨hshort, hget⟩
  exact Source.add_eq_ok_iff.mpr ⟨by simp [hrefused], directory, hinspect,
    .inl ⟨hsound.watchOf?_eq_some_iff.mpr hlive, rfl⟩⟩

theorem ends_handle_movedFrom (hquiet : t.departures = .empty) (hdraining : watch ∉ t.draining)
    (h : Aligned tree t) (hentry : ⟨watch, path⟩ ∈ t.table.entries) :
    (handle ⟨watch, .movedFrom, true, some cookie, some name⟩).Ends moment t
      (fun _ u => ∃ counts, u = { t with
        departures := ⟨[⟨cookie, watch, path.child name, moment.now⟩]⟩, counts })
      fun _ _ => False := by
  have hcounted : Aligned tree t.counted := h.of_same rfl rfl
  have hsubject := @ends_subject_of_entry moment t.counted (fun _ _ => False) path
    ⟨watch, .movedFrom, true, some cookie, some name⟩ tree hcounted hentry name rfl
  rw [ends_handle_of_quiet hquiet (.inr hdraining), applyEvent]
  simp only [onMovedFrom, if_true, ends_bind, hsubject, ends_say, ends_now, ends_state, ends_change]
  simp only [counted, hquiet, Departures.get?, Departures.empty, List.find?_nil, ends_pure]
  exact ⟨_, rfl⟩

/-- The second half takes the entries along, if the watch at the old path is that of what
arrived. -/
theorem ends_handle_movedTo {tree' : FileTree} (hdraining : watch ∉ t.draining)
    (hwaits : t.departures = ⟨[⟨cookie, id, path, since⟩]⟩) (h : Aligned tree t)
    (hentry : ⟨watch, pathOf location⟩ ∈ t.table.entries) (hplace : IsPlace (location ++ [name]))
    {moved : WatchId} (hcached : t.table.idAt? path = some moved)
    (hadd : t.source.add tree' (pathOf (location ++ [name])) = .ok (moved, t.source)) :
    (handle ⟨watch, .movedTo, true, some cookie, some name⟩).Ends ⟨tree', now⟩ t
      (fun _ u => ∃ roots counts, roots.live = t.roots.live.eraseP (·.path.same path) ∧
        u = { t with
          table := t.table.relocate path (pathOf (location ++ [name]))
          roots, counts, departures := .empty })
      fun _ _ => False := by
  have hreceived : t.received ⟨watch, .movedTo, true, some cookie, some name⟩ = t.counted := by
    simp [received, completes, hwaits, Departures.contains, Departures.get?, counted]
  have hcounted : Aligned tree t.counted := h.of_same rfl rfl
  have hsubject := @ends_subject_of_entry ⟨tree', now⟩ t.counted (fun _ _ => False)
    (pathOf location) ⟨watch, .movedTo, true, some cookie, some name⟩ tree hcounted hentry name rfl
  have hget : t.counted.departures.get? cookie = some ⟨cookie, id, path, since⟩ := by
    simp [counted, hwaits, Departures.get?]
  have herase : t.counted.departures.erase cookie = .empty := by
    simp [counted, hwaits, Departures.erase, Departures.empty]
  rw [ends_handle, hreceived, if_neg (by simpa [isStale, isDraining, counted] using hdraining),
    applyEvent]
  simp only [onMovedTo, if_true, ends_bind, hsubject, ends_claim, hget, herase,
    child_pathOf hplace.left hplace.last]
  have hadd' : t.counted.source.add tree' (pathOf (location ++ [name])) = .ok (moved,
      t.counted.source) :=
    hadd
  have hcached' : t.counted.table.idAt? path = some moved := hcached
  simp only [rename, ends_bind, ends_change, ends_state, ends_requestWatch, hadd',
    hcached', if_true, ends_moveEntries, ends_say, ends_retireRoot]
  obtain ⟨roots, counts, hu, hlive⟩ := exists_withoutRoot { t with
    table := t.table.relocate path (pathOf (location ++ [name]))
    departures := .empty
    counts := { t.counted.counts with renamed := t.counted.counts.renamed + 1 } } path
  exact ⟨roots, counts, hlive, hu⟩

/-- Without a second half what departed is given up, and so what is still told of it comes too
late. -/
theorem ends_handle_of_departed (hwaits : t.departures = ⟨[⟨cookie, watch, path, since⟩]⟩)
    (hstale : id ∈ (withoutSubtree
      { t with departures := .empty, counts := t.counted.counts } path).draining) :
    (handle (.onWatch id .moveSelf)).Ends moment t
      (fun _ u => ∃ counts, u = { withoutSubtree
        { t with departures := .empty, counts := t.counted.counts } path with counts })
      fun _ _ => False := by
  have hreceived : ∃ counts, t.received (.onWatch id .moveSelf) = { withoutSubtree
      { t with departures := .empty, counts := t.counted.counts } path with counts } := by
    simp only [received, completes, hwaits, Departures.isEmpty, Event.onWatch, expired,
      List.foldl_cons, List.foldl_nil, withoutMoved]
    exact ⟨_, rfl⟩
  obtain ⟨counts, hreceived⟩ := hreceived
  rw [ends_handle, hreceived, if_pos]
  · exact ⟨_, rfl⟩
  · simpa [isStale, isDraining, Event.onWatch] using hstale

theorem ends_handle_moveSelf (hquiet : t.departures = .empty) (hdraining : id ∉ t.draining)
    (h : Aligned tree t) (hentry : ⟨id, path⟩ ∈ t.table.entries) :
    (handle (.onWatch id .moveSelf)).Ends moment t
      (fun _ u => u = if t.roots.isRoot path then (t.counted.withoutRoot path).withoutSubtree path
        else t.counted)
      fun _ _ => False := by
  have hpath : t.counted.table.pathOf? id = some path :=
    pathOf?_of_aligned (t := t.counted) (h.of_same rfl rfl) hentry
  rw [ends_handle_of_quiet hquiet (.inr hdraining)]
  apply ends_onMoveSelf.mpr
  simp only [selfMoved, Event.onWatch, hpath]
  rfl

section MovedRoots

variable {previous : Path}

/-- A directory that is met under another path takes its entries along, and its root is retired. -/
theorem ends_watchDirectory_of_moved {tree' : FileTree} {failed : Fault → Tracker → Prop}
    (hadd : t.source.add tree' path = .ok (id, t.source)) (h : Aligned tree t)
    (hentry : ⟨id, previous⟩ ∈ t.table.entries) (hmoved : previous.same path = false)
    {done : Option Watched → Tracker → Prop} :
    (watchDirectory path).Ends ⟨tree', now⟩ t done failed ↔
      done (some (.known id)) ({ t with table := t.table.relocate previous path }.withoutRoot
        previous) := by
  obtain ⟨slot, hslot, hget⟩ := exists_slotOf?_of_aligned h hentry
  simp only [watchDirectory, ends_bind, ends_requestWatch, hadd, ends_state, hslot, hget,
    Option.map_some]
  rw [if_neg (by simp [hmoved])]
  simp only [ends_bind, ends_say, ends_moveEntries, ends_retireRoot, ends_pure]

theorem ends_coverSubtree_of_moved {tree' : FileTree} (hwf : tree'.WellFormed) (h : Aligned tree t)
    (hrefused : t.source.refused = []) (hshort : IsShort location)
    (hget : tree'.get? location = some (.directory directory))
    (hlive : (id, directory) ∈ t.source.live) (hentry : ⟨id, previous⟩ ∈ t.table.entries)
    (hmoved : previous.same (pathOf location) = false) (haligned : Aligned tree'
      ({ t with table := t.table.relocate previous (pathOf location) }.withoutRoot previous)) :
    (coverSubtree (pathOf location)).Ends ⟨tree', now⟩ t
      (fun n u =>
        Elsewhere ({ t with table := t.table.relocate previous (pathOf location) }.withoutRoot
          previous) u ∧
        Grown tree' (location <+: ·)
          ({ t with table := t.table.relocate previous (pathOf location) }.withoutRoot previous) u
            n)
      fun _ _ => Obstructed tree' t := by
  have hplace := hwf.isPlace hget
  have hlinks := hwf.linkFree hget
  have hinspect := (inspect_pathOf_eq_ok_iff hwf hplace hlinks).mpr ⟨hshort, hget⟩
  obtain ⟨rest, hwalk⟩ := walk_of_inspect hinspect
  have hlink : ∀ target, tree'.get? location ≠ some (.link target) := by simp [hget]
  have hadd := add_of_live hwf h.sound hrefused hshort hget hlive
  set v := { t with table := t.table.relocate previous (pathOf location) }.withoutRoot previous with
    hv
  have hlive' : (id, directory) ∈ v.source.live := by simpa [hv] using hlive
  have hfirst : Grown tree' (· = location) v v 0 := Grown.refl haligned <| by
    rintro place other rfl - hother
    obtain rfl := eq_of_get?_directory hget hother
    exact ⟨id, hlive'⟩
  rw [ends_coverSubtree, hwalk, watchItems, ends_bind,
    ends_watchDirectory_of_moved hadd h hentry hmoved]
  refine (ends_watchItems hwf _ rest (fun path hmem => ?_) haligned).mono (fun n u hu => ?_)
    fun _ _ hobstructed => ?_
  · obtain ⟨place, other, -, hpath, hplaceGet⟩ :=
      exists_of_mem_walk hwf hplace hlinks hlink (hwalk ▸ List.mem_cons_of_mem _ hmem)
    exact ⟨place, other, hpath, hplaceGet⟩
  · refine ⟨hu.1, Nat.zero_add n ▸ (hfirst.trans hu.2).congr fun place other hplaceShort
      hplaceGet => ?_⟩
    rw [← mem_walk_iff hwf hplace hlinks hlink hplaceShort hplaceGet, hwalk, List.mem_cons,
      WalkItem.entry.injEq, and_iff_left rfl, pathOf_inj (hwf.isPlace hplaceGet) hplace]
  · simpa [Obstructed, hv, WatchTable.relocate] using hobstructed

/-- A root that arrives in a watched directory takes its entries along and is a root no more. -/
theorem ends_handle_movedRoot {tree' : FileTree} (hwf : tree'.WellFormed)
    (hquiet : t.departures = .empty) (hdraining : watch ∉ t.draining) (h : Aligned tree t)
    (hparent : ⟨watch, pathOf location⟩ ∈ t.table.entries) (hshort : IsShort (location ++ [name]))
    (hget : tree'.get? (location ++ [name]) = some (.directory directory))
    (hlive : (id, directory) ∈ t.source.live) (hentry : ⟨id, previous⟩ ∈ t.table.entries)
    (hmoved : previous.same (pathOf (location ++ [name])) = false)
    (haligned : Aligned tree'
      { t with table := t.table.relocate previous (pathOf (location ++ [name])) })
    (hfree : ¬ Obstructed tree' t) :
    (handle ⟨watch, .movedTo, true, some cookie, some name⟩).Ends ⟨tree', now⟩ t
      (fun _ u => ∃ roots counts n, roots.live = t.roots.live.eraseP (·.path.same previous) ∧
        Aside t u ∧ u.roots = roots ∧ Grown tree' (location ++ [name] <+: ·) { t with
          table := t.table.relocate previous (pathOf (location ++ [name])), roots, counts } u n)
      fun _ _ => False := by
  have hplace := hwf.isPlace hget
  have hcounted : Aligned tree t.counted := h.of_same rfl rfl
  have hsubject := @ends_subject_of_entry ⟨tree', now⟩ t.counted (fun _ _ => False)
    (pathOf location) ⟨watch, .movedTo, true, some cookie, some name⟩ tree hcounted hparent name rfl
  have hget' : t.counted.departures.get? cookie = none := by
    simp [counted, hquiet, Departures.get?, Departures.empty]
  have herase : t.counted.departures.erase cookie = t.departures := by
    simp [counted, hquiet, Departures.erase, Departures.empty]
  rw [ends_handle_of_quiet hquiet (.inr hdraining), applyEvent]
  simp only [onMovedTo, if_true, ends_bind, hsubject, ends_claim, hget', herase,
    child_pathOf hplace.left hplace.last, ends_say]
  obtain ⟨roots, counts, hu, hroots⟩ := exists_withoutRoot
    { t with
      table := t.table.relocate previous (pathOf (location ++ [name]))
      counts := t.counted.counts } previous
  have hrefused : t.source.refused = [] := by_contra fun hne => hfree (.inl hne)
  have hcover := @ends_coverSubtree_of_moved tree { t with counts := t.counted.counts } now id
    directory (location ++ [name]) previous tree' hwf (h.of_same rfl rfl) hrefused hshort hget hlive
    hentry hmoved (hu ▸ haligned.of_same rfl rfl)
  rw [hu] at hcover
  refine (ends_welcome_of_cover hcover).mono (fun _ u hv => ?_) fun _ _ => hfree
  obtain ⟨haside, huroots, n, hgrown⟩ := hv
  exact ⟨roots, counts, n, hroots, ⟨haside.departures, haside.draining, haside.policy⟩,
    huroots, hgrown⟩

end MovedRoots

end Tracker

end TreeWatch
