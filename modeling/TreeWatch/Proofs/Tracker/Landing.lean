import TreeWatch.Proofs.FileTree.Identity
import TreeWatch.Proofs.Tracker.Arrangement
import TreeWatch.Proofs.Tracker.Arrivals

/-!
# Where a completed rename lands

A completed rename takes the entries below the old path along, if the directory that was known there
is the one at the new path; the tree is not looked at then. So what is bound in the end below the
new path is what had an entry before: a directory that came into the moved one before the rename,
and whose own event has not been read, is left out. In every other case the tree below the new path
is walked, and all of it is bound.
-/

namespace TreeWatch

namespace Tracker

open TreeWatch.Action
open FileTree (walkPath pathOf)
open WatchTable (movedEntry movedEntry_of_not_below)

variable {moment : Moment} {tree : FileTree} {source target start path : Path} {t u : Tracker}
  {event : Event} {entry : Entry} {place found : Path × DirectoryId} {location : Location}
  {top directory : DirectoryId}

/-- What the table has at a path is the watch of a directory. -/
def BoundAt (path : Path) (directory : DirectoryId) (t : Tracker) : Prop :=
  ∃ id ∈ t.table.idAt? path, (id, directory) ∈ t.source.live

instance (path : Path) (directory : DirectoryId) (t : Tracker) :
    Decidable (BoundAt path directory t) :=
  inferInstanceAs (Decidable (∃ id ∈ t.table.idAt? path, _))

/-- A directory has an entry at or below `source`, or one that is at its path already. -/
def KnownBelow (source path : Path) (directory : DirectoryId) (t : Tracker) : Prop :=
  ∃ entry ∈ t.table.entries, (entry.id, directory) ∈ t.source.live ∧
    (entry.path.isBelow source = true ∨ entry.path.same path = true)

instance (source path : Path) (directory : DirectoryId) (t : Tracker) :
    Decidable (KnownBelow source path directory t) :=
  inferInstanceAs (Decidable (∃ entry ∈ t.table.entries, _ ∧ _))

theorem Arranged.boundAt_iff (h : Arranged tree start t) (hsound : t.source.Sound)
    (hplace : place ∈ tree.survey start) : BoundAt place.1 place.2 t ↔ t.Settled place := by
  constructor
  · rintro ⟨id, hat, hlive⟩
    obtain ⟨entry, hentry, rfl, hsame⟩ := exists_mem_entries_at hat
    exact ⟨entry, hentry, hlive, Path.same_symm hsame⟩
  · intro hsettled
    obtain ⟨entry, -, hlive, -⟩ := id hsettled
    exact ⟨entry.id, h.idAt? hsound hplace hsettled hlive, hlive⟩

/-- An entry that moves to its place leaves those in place that were there or that it takes
along. -/
theorem Arranged.settled_move_iff (hwf : tree.WellFormed)
    (hfind : tree.find false start = .ok (location, .directory top)) (h : Arranged tree start t)
    (hsound : t.source.Sound) (hentry : entry ∈ t.table.entries)
    (hfound : found ∈ tree.survey start) (hwatch : (entry.id, found.2) ∈ t.source.live)
    (hsame : found.1.same entry.path = false)
    (hentries : u.table.entries = t.table.entries.map (movedEntry entry.path found.1))
    (hlive : u.source.live = t.source.live) (hplace : place ∈ tree.survey start) :
    u.Settled place ↔ KnownBelow entry.path place.1 place.2 t := by
  constructor
  · rintro ⟨moved, hmoved, hwatch', hat⟩
    rw [hentries] at hmoved
    obtain ⟨other, hother, rfl⟩ := List.mem_map.mp hmoved
    rw [WatchTable.movedEntry_id, hlive] at hwatch'
    refine ⟨other, hother, hwatch', ?_⟩
    cases hbelow : other.path.isBelow entry.path with
    | true => exact .inl rfl
    | false =>
      rw [movedEntry_of_not_below hbelow] at hat
      exact .inr (Path.same_symm hat)
  · rintro ⟨other, hother, hwatch', hbelow | hat⟩
    · have hlands := (h.whole entry hentry found hfound hwatch hsame).2 other hother hbelow
      refine ⟨movedEntry entry.path found.1 other, hentries ▸ List.mem_map_of_mem hother, ?_, ?_⟩
      · rwa [WatchTable.movedEntry_id, hlive]
      · exact hlands.same hwf hfind hsound hplace (by rwa [WatchTable.movedEntry_id])
    · exact h.settled_move hwf hfind hentry hfound hwatch hsame hsound hentries hlive hplace
        ⟨other, hother, hwatch', Path.same_symm hat⟩

/-- What completing a rename binds below a target that is a directory. -/
theorem ends_rename_binds (h : Registered none t) (hwf : moment.tree.WellFormed)
    (hfind : moment.tree.find false target = .ok (location, .directory top))
    (hother : source.same target = false) (harranged : Arranged moment.tree target t) :
    (rename source target).Ends moment t
      (fun _ u => ∀ place ∈ moment.tree.survey target,
        BoundAt place.1 place.2 u ↔ (BoundAt source top t → KnownBelow source place.1 place.2 t))
      fun _ _ => True := by
  have htop := FileTree.inspect_of_find hfind
  apply ends_rename_of h
  · exact fun hgone => absurd htop (hgone top)
  · intro id directory hinspect hlive hat u hsource htable place hplace
    obtain rfl := FileTree.eq_of_inspect hinspect htop
    obtain ⟨entry, hentry, rfl, hspelled⟩ := exists_mem_entries_at hat
    have hbound : BoundAt source directory t := ⟨entry.id, hat, hlive⟩
    have hstray : target.same entry.path = false := Bool.eq_false_iff.mpr fun hsame =>
      Bool.false_ne_true (hother.symm.trans (Path.same_symm (Path.same_trans hsame hspelled)))
    have hstart := FileTree.start_mem_survey hwf hfind
    have hentries : u.table.entries = t.table.entries.map (movedEntry entry.path target) := by
      rw [htable, WatchTable.entries_relocate]
      exact List.map_congr_left fun other _ =>
        movedEntry_congr (Path.same_symm hspelled) target other
    have hlives : u.source.live = t.source.live := by rw [hsource]
    have hnext : Arranged moment.tree target u :=
      harranged.move hwf hfind hentry hstart hlive hstray h.sound hentries hlives
    rw [hnext.boundAt_iff (hsource ▸ h.sound) hplace,
      harranged.settled_move_iff hwf hfind h.sound hentry hstart hlive hstray hentries
      hlives hplace]
    have hbelow (path : Path) : path.isBelow entry.path = path.isBelow source :=
      Path.isBelow_congr_base hspelled path
    simp only [KnownBelow, hbelow, hbound, true_imp_iff]
  · intro directory hinspect hnot counts u _ hu place hplace
    obtain rfl := FileTree.eq_of_inspect hinspect htop
    have hstate : Registered none { t with counts } := h.of_same rfl rfl rfl
    have hbegin : Arranged moment.tree target { t with counts } := ⟨harranged.own, harranged.whole⟩
    obtain ⟨hlast, -, hsettled⟩ := hbegin.of_watchesEach hwf hfind hstate
      (fun _ => mem_filterMap_directory?.mp) hu
    obtain ⟨hitem, hfound⟩ := FileTree.mem_survey_iff.mp hplace
    have hbound : BoundAt place.1 place.2 u :=
      (hlast.boundAt_iff (hstate.of_watchesEach hu).sound hplace).mpr
      (hsettled place.1 (mem_filterMap_directory?.mpr hitem) place.2 hfound)
    refine iff_of_true hbound fun hcached => ?_
    obtain ⟨id, hat, hlive⟩ := hcached
    exact absurd hlive (hnot id hat)

theorem boundAt_congr (hlive : u.source.live = t.source.live) (htable : u.table = t.table) :
    BoundAt path directory u ↔ BoundAt path directory t := by
  rw [BoundAt, BoundAt, hlive, htable]

theorem knownBelow_congr (hlive : u.source.live = t.source.live) (htable : u.table = t.table) :
    KnownBelow source path directory u ↔ KnownBelow source path directory t := by
  rw [KnownBelow, KnownBelow, hlive, htable]

section Handling

variable {departure : Departure} {cookie : Nat} {name : Bytes} (hkind : event.kind = .movedTo)
  (hdirectory : event.isDirectory = true) (hname : event.name = some name)
  (hcookie : event.cookie = some cookie) (hdeparture : t.departures.get? cookie = some departure)
  (hentry : entry ∈ t.table.entries) (hwatch : entry.id = event.watch)
  (hdraining : event.watch ∉ t.draining)

include hkind hdirectory hname hcookie hdeparture hentry hwatch hdraining

theorem ends_handle_claiming {done : Tracker → Prop} {failed : Fault → Tracker → Prop}
    (h : Registered none t) (hrename : (rename departure.path (entry.path.child name)).Ends moment
      { t.counted with departures := t.departures.erase cookie } (fun _ u => done u) failed) :
    (handle event).Ends moment t (fun _ u => done u) failed := by
  have hcompletes : t.completes event = true := by
    simp [completes, hkind, hcookie, Departures.contains, hdeparture]
  have hreceived : t.received event = t.counted := received_of_completes hcompletes
  have hfresh : ¬ t.counted.isStale event = true := by
    rw [isStale, Bool.and_eq_true]
    exact fun hstale => hdraining (List.contains_iff_mem.mp hstale.2)
  obtain ⟨slot, hslot, hget⟩ := WatchTable.exists_slotOf? h.ids hentry (h.bound entry hentry)
  rw [hwatch] at hslot
  have hslot' : t.counted.table.slotOf? event.watch = some slot := hslot
  have hget' : t.counted.table.get? slot = some entry := hget
  have hdeparture' : t.counted.departures.get? cookie = some departure := hdeparture
  rw [ends_handle, hreceived, if_neg hfresh]
  simp only [applyEvent, hkind, onMovedTo, hdirectory, if_true, ends_bind, ends_subject, hname,
    hslot', hget', Option.map_some, ends_claim, hcookie, hdeparture']
  exact hrename

theorem ends_handle_completing {done : Tracker → Prop} {failed : Fault → Tracker → Prop}
    (h : Registered none t)
    (hrename : ∀ departures, (rename departure.path (entry.path.child name)).Ends moment
      { t.counted with departures } (fun _ u => done u) failed) :
    (handle event).Ends moment t (fun _ u => done u) failed :=
  ends_handle_claiming hkind hdirectory hname hcookie hdeparture hentry hwatch hdraining h
    (hrename _)

end Handling

section Runs

variable {admits : Transition → Prop} {first : Source} {roots : Roots} {policy : Policy}
  {history : List Transition} {transition : Transition} {departure : Departure} {cookie : Nat}
  {name : Bytes}

/-- Whatever happened before, and whatever the tree has become since the rename: where all is
arranged, a directory at or below the new path is bound to its path after the rename was completed,
if and only if it was known below the old path, or at its own, or if the directory at the new path
was not the one that was known at the old path. -/
theorem completed_rename_binds_what_was_known (hlive : first.live = [])
    (h : Run admits (ofRoots first roots policy) history t) (hbefore : transition.before = t)
    (hwf : transition.moment.tree.WellFormed) (hevent : transition.event? = some event)
    (hkind : event.kind = .movedTo) (hdirectory : event.isDirectory = true)
    (hname : event.name = some name) (hcookie : event.cookie = some cookie)
    (hdeparture : t.departures.get? cookie = some departure) (hentry : entry ∈ t.table.entries)
    (hwatch : entry.id = event.watch) (hdraining : event.watch ∉ t.draining)
    (hfind : transition.moment.tree.find false (entry.path.child name) = .ok (location,
      .directory top)) (hother : departure.path.same (entry.path.child name) = false)
    (harranged : Arranged transition.moment.tree (entry.path.child name) t)
    (hok : transition.Succeeds) :
    ∀ names directory, transition.moment.tree.get? (location ++ names) =
      some (.directory directory) →
      (walkPath (entry.path.child name) names).bytes.length < FileTree.pathLimit →
      (BoundAt (walkPath (entry.path.child name) names) directory transition.after ↔
        (BoundAt departure.path top t →
          KnownBelow departure.path (walkPath (entry.path.child name) names) directory t)) := by
  subst hbefore
  have hregistered := h.registered hlive
  have hends : transition.step.act.Ends transition.moment transition.before
      (fun _ u => ∀ place ∈ transition.moment.tree.survey (entry.path.child name),
        BoundAt place.1 place.2 u ↔ (BoundAt departure.path top transition.before →
          KnownBelow departure.path place.1 place.2 transition.before))
      fun _ _ => True := by
    apply Transition.ends_arrival hevent ⟨hdirectory, .inr hkind⟩
    intro source hsource hnextId
    have htaken : Registered none { transition.before with source } :=
      hregistered.of_same hsource hnextId rfl
    apply ends_handle_completing (t := { transition.before with source }) hkind hdirectory
      hname hcookie hdeparture hentry hwatch hdraining htaken
    intro departures
    let begun : Tracker := { ({ transition.before with source } : Tracker).counted with departures }
    have hbegun : Registered none begun := htaken.of_same rfl rfl rfl
    have hplaced : Arranged transition.moment.tree (entry.path.child name) begun :=
      harranged.of_subset (List.Subset.refl _) fun _ _ _ => hsource ▸ Iff.rfl
    apply (ends_rename_binds hbegun hwf hfind hother hplaced).imp
    intro _ u hu place hplace
    have hlives : begun.source.live = transition.before.source.live := hsource
    rw [hu place hplace, boundAt_congr hlives rfl, knownBelow_congr hlives rfl]
  intro names directory hget hshort
  have hplace := (FileTree.mem_survey_iff_of_find hwf hfind).mpr ⟨names, rfl, hshort, hget⟩
  have hbinds := hok.of_ends hends _ hplace
  exact hbinds

/-- A directory with one in it was renamed, after another one was made in it. The one that was known
is bound to its new path, and the new one is not. -/
theorem completed_rename_binds_what_was_known_of_early_child :
    let outer := (FileTree.empty.putDirectory [[114]]).putDirectory [[114], [97]]
    let before := outer.putDirectory [[114], [97], [120]]
    let after := (before.putDirectory [[114], [97], [121]]).relocate [[114], [97]] [[114], [98]]
    let t := outcome (ofRoots .empty ⟨[some ⟨pathOf [[114]], 1⟩], 0⟩ ⟨true, .rescan⟩)
      [(⟨before, 0⟩, .start), (⟨after, 0⟩, .handle ⟨⟨1⟩, .movedFrom, true, some 7, some [97]⟩)]
    let last : Transition := ⟨⟨after, 0⟩, t, .handle ⟨⟨1⟩, .movedTo, true, some 7, some [98]⟩⟩
    Arranged after (pathOf [[114], [98]]) t ∧ last.Succeeds ∧
      BoundAt (pathOf [[114], [98], [120]]) 3 last.after ∧
      ¬ BoundAt (pathOf [[114], [98], [121]]) 4 last.after := by
  intro outer before after t last
  have hafter : after.WellFormed := by decide +kernel
  have hrun : Run (fun _ => True) (ofRoots .empty ⟨[some ⟨pathOf [[114]], 1⟩], 0⟩ ⟨true, .rescan⟩)
      (transitions _ [(⟨before, 0⟩, .start),
        (⟨after, 0⟩, .handle ⟨⟨1⟩, .movedFrom, true, some 7, some [97]⟩)]) t :=
    run_transitions fun _ _ => trivial
  have hlast : last.before = t := by dsimp only [last]
  have hevent : last.event? = some ⟨⟨1⟩, .movedTo, true, some 7, some [98]⟩ := rfl
  have hdeparture : t.departures.get? 7 = some ⟨7, ⟨1⟩, pathOf [[114], [97]], 0⟩ := by
    decide +kernel
  have hentry : ⟨⟨1⟩, pathOf [[114]]⟩ ∈ t.table.entries := by decide +kernel
  have hpath : (pathOf [[114]]).child [98] = pathOf [[114], [98]] := by decide
  have hfind : after.find false (pathOf [[114], [98]]) = .ok ([[114], [98]], .directory 2) := by
    decide +kernel
  have harranged : Arranged after (pathOf [[114], [98]]) t := by decide +kernel
  have hok : last.Succeeds := by decide +kernel
  have hbinds := completed_rename_binds_what_was_known rfl hrun hlast hafter hevent rfl rfl rfl rfl
    hdeparture hentry rfl (by decide +kernel) (hpath ▸ hfind) (by decide) (hpath ▸ harranged) hok
  rw [hpath] at hbinds
  have hold := hbinds [[120]] 3 (by decide) (by decide)
  have hnew := hbinds [[121]] 4 (by decide) (by decide)
  refine ⟨harranged, hok, hold.mpr fun _ => by decide +kernel, fun hbound => ?_⟩
  have hknown := hnew.mp hbound (by decide +kernel)
  exact absurd hknown (by decide +kernel)

/-- A directory was made in one that was renamed right after. Its event is read when the old path is
gone already, and the rename does not look for it: it stands below the new path and is not
watched. -/
theorem early_child_is_not_bound :
    let before := (FileTree.empty.putDirectory [[114]]).putDirectory [[114], [97]]
    let after := (before.putDirectory [[114], [97], [120]]).relocate [[114], [97]] [[114], [98]]
    let t := outcome (ofRoots .empty ⟨[some ⟨pathOf [[114]], 1⟩], 0⟩ ⟨true, .rescan⟩)
      [(⟨before, 0⟩, .start), (⟨after, 0⟩, .handle ⟨⟨2⟩, .create, true, none, some [120]⟩),
        (⟨after, 0⟩, .handle ⟨⟨1⟩, .movedFrom, true, some 7, some [97]⟩)]
    let last : Transition := ⟨⟨after, 0⟩, t, .handle ⟨⟨1⟩, .movedTo, true, some 7, some [98]⟩⟩
    last.Succeeds ∧ after.isDirectory (pathOf [[114], [98]]) = true ∧
      after.inspect (pathOf [[114], [98], [120]]) = .ok (.directory 3) ∧
      last.after.table.idAt? (pathOf [[114], [98]]) = some ⟨2⟩ ∧
      last.after.table.idAt? (pathOf [[114], [98], [120]]) = none ∧
      last.after.source.live = [(⟨1⟩, 1), (⟨2⟩, 2)] := by
  decide +kernel

end Runs

end Tracker

end TreeWatch
