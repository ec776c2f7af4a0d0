import TreeWatch.Proofs.Tracker.Covering

/-!
# Paths in the table and places in the tree

When a subtree is covered whose directories have entries under other paths already, the entries are
moved to where the walk meets their directories, and each takes along what is below its old path.
This comes out right if no entry stands at the place of another directory of the subtree, and if an
entry that has to move has nothing below it that does not move to its own place with it. Otherwise
what was just put in its place may be taken away again.
-/

namespace TreeWatch

namespace Tracker

open TreeWatch.Action
open FileTree (survey walkPath)
open WatchTable (movedEntry movedEntry_of_not_below)

variable {moment : Moment} {tree : FileTree} {start path previous : Path} {t u v : Tracker}
  {entry other : Entry} {found place : Path × DirectoryId} {source : Source} {paths : List Path}

/-- A walk from `start` meets the directory of an entry's watch at the entry's path. -/
def Lands (tree : FileTree) (start : Path) (source : Source) (entry : Entry) : Prop :=
  ∃ found ∈ tree.survey start, (entry.id, found.2) ∈ source.live ∧ found.1.same entry.path = true

/-- Entries at the places of a subtree belong there, and an entry that has to move there from
another path comes from outside and brings to its own place all that is below that path. -/
structure Arranged (tree : FileTree) (start : Path) (t : Tracker) : Prop where
  own : ∀ entry ∈ t.table.entries, ∀ found ∈ tree.survey start,
    found.1.same entry.path = true → (entry.id, found.2) ∈ t.source.live
  whole : ∀ entry ∈ t.table.entries, ∀ found ∈ tree.survey start,
    (entry.id, found.2) ∈ t.source.live → found.1.same entry.path = false →
      start.isBelow entry.path = false ∧
        ∀ other ∈ t.table.entries, other.path.isBelow entry.path = true →
          Lands tree start t.source (movedEntry entry.path found.1 other)

instance (tree : FileTree) (start : Path) (source : Source) (entry : Entry) :
    Decidable (Lands tree start source entry) :=
  inferInstanceAs (Decidable (∃ found ∈ tree.survey start, _ ∧ _))

instance (tree : FileTree) (start : Path) (t : Tracker) : Decidable (Arranged tree start t) :=
  decidable_of_iff (_ ∧ _) ⟨fun h => ⟨h.1, h.2⟩, fun h => ⟨h.own, h.whole⟩⟩

theorem movedEntry_congr {base : Path} (h : base.same previous = true) (path : Path)
    (entry : Entry) :
    movedEntry base path entry = movedEntry previous path entry := by
  rw [Path.same, beq_iff_eq] at h
  simp only [movedEntry, WatchTable.moved?, Path.below?, Path.isBelow, h]
  rfl

theorem bounded_of_mem_survey (h : found ∈ tree.survey start) : found.1.bounded = found.1 := by
  have hshort : found.1.bytes.length ≤ pathMax :=
    Nat.le_of_lt (FileTree.length_lt_of_inspect (FileTree.mem_survey_iff.mp h).2)
  rw [Path.bounded, if_neg (by simpa [Path.isLong] using hshort)]

/-- There is an entry for a directory of a subtree, at its place. -/
def Settled (t : Tracker) (found : Path × DirectoryId) : Prop :=
  ∃ entry ∈ t.table.entries, (entry.id, found.2) ∈ t.source.live ∧ found.1.same entry.path = true

namespace Lands

theorem mono (h : Lands tree start t.source entry) (hlive : t.source.live ⊆ source.live) :
    Lands tree start source entry := by
  obtain ⟨found, hfound, hwatch, hsame⟩ := h
  exact ⟨found, hfound, hlive hwatch, hsame⟩

theorem own (h : Lands tree start source entry) (hfound : found ∈ tree.survey start)
    (hsame : found.1.same entry.path = true) : (entry.id, found.2) ∈ source.live := by
  obtain ⟨place, hplace, hlive, hat⟩ := h
  have hdirectory : place.2 = found.2 :=
    FileTree.eq_of_mem_survey_of_same hplace hfound (Path.same_trans hat (Path.same_symm hsame))
  exact hdirectory ▸ hlive

end Lands

theorem Arranged.lands_or (h : Arranged tree start t) (hentry : entry ∈ t.table.entries)
    (hfound : found ∈ tree.survey start) (hwatch : (entry.id, found.2) ∈ t.source.live)
    (hsame : found.1.same entry.path = false) (hother : other ∈ t.table.entries) :
    Lands tree start t.source (movedEntry entry.path found.1 other) ∨
      movedEntry entry.path found.1 other = other := by
  cases hbelow : other.path.isBelow entry.path with
  | true => exact .inl ((h.whole entry hentry found hfound hwatch hsame).2 other hother hbelow)
  | false => exact .inr (movedEntry_of_not_below hbelow)

section Walks

variable {location : Location} {directory : DirectoryId} (hwf : tree.WellFormed)
  (hfind : tree.find false start = .ok (location, .directory directory))

include hwf hfind

/-- An entry that has landed is at the place of its directory and nowhere else. -/
theorem Lands.same (h : Lands tree start source entry) (hsound : source.Sound)
    (hfound : found ∈ tree.survey start) (hlive : (entry.id, found.2) ∈ source.live) :
    found.1.same entry.path = true := by
  obtain ⟨place, hplace, hlive', hsame⟩ := h
  have hdirectory := hsound.eq_of_id hlive hlive'
  have hpath : found.1 = place.1 :=
    FileTree.eq_of_mem_survey_of_directory hwf hfind hfound (hdirectory ▸ hplace)
  rwa [hpath]

namespace Arranged

/-- No place of the subtree is below an entry that has to move. -/
theorem not_below (h : Arranged tree start t) (hsound : t.source.Sound)
    (hentry : entry ∈ t.table.entries) (hfound : found ∈ tree.survey start)
    (hlive : (entry.id, found.2) ∈ t.source.live) (hsame : found.1.same entry.path = false)
    (hplace : place ∈ tree.survey start) : place.1.isBelow entry.path = false := by
  refine Bool.eq_false_iff.mpr fun hbelow => ?_
  have habove := (h.whole entry hentry found hfound hlive hsame).1
  obtain ⟨between, other, hbetween, hat⟩ :=
    FileTree.exists_mem_survey_of_between hwf hfind hplace hbelow habove
  have hown := h.own entry hentry (between, other) hbetween hat
  have hdirectory : other = found.2 := hsound.eq_of_id hown hlive
  have hpath : between = found.1 :=
    FileTree.eq_of_mem_survey_of_directory hwf hfind (hdirectory ▸ hbetween) hfound
  rw [← hpath, hat] at hsame
  cases hsame

theorem enter (h : Arranged tree start t) (hsound : t.source.Sound)
    (hlands : Lands tree start t.source entry)
    (hentries : u.table.entries.Perm (entry :: t.table.entries))
    (hlive : u.source.live = t.source.live) : Arranged tree start u := by
  have hmem {other : Entry} (hother : other ∈ u.table.entries) :
      other = entry ∨ other ∈ t.table.entries :=
    List.mem_cons.mp (hentries.mem_iff.mp hother)
  constructor
  · intro other hother found hfound hsame
    rw [hlive]
    rcases hmem hother with rfl | hother
    · exact hlands.own hfound hsame
    · exact h.own other hother found hfound hsame
  · intro other hother found hfound hwatch hsame
    rw [hlive] at hwatch
    rcases hmem hother with rfl | hother
    · rw [hlands.same hwf hfind hsound hfound hwatch] at hsame
      cases hsame
    · obtain ⟨habove, hwhole⟩ := h.whole other hother found hfound hwatch hsame
      refine ⟨habove, fun third hthird hbelow => ?_⟩
      rcases hmem hthird with rfl | hthird
      · obtain ⟨place, hplace, -, hat⟩ := hlands
        have hnot := h.not_below hwf hfind hsound hother hfound hwatch hsame hplace
        rw [Path.isBelow_congr hat] at hnot
        exact absurd (hnot.symm.trans hbelow) Bool.false_ne_true
      · exact (hwhole third hthird hbelow).mono (hlive ▸ List.Subset.refl _)

variable (hentry : entry ∈ t.table.entries) (hfound : found ∈ tree.survey start)
  (hwatch : (entry.id, found.2) ∈ t.source.live) (hsame : found.1.same entry.path = false)

include hentry hfound hwatch hsame

theorem move (h : Arranged tree start t) (hsound : t.source.Sound)
    (hentries : u.table.entries = t.table.entries.map (movedEntry entry.path found.1))
    (hlive : u.source.live = t.source.live) : Arranged tree start u := by
  constructor
  · intro moved hmoved place hplace hat
    rw [hentries] at hmoved
    obtain ⟨other, hother, rfl⟩ := List.mem_map.mp hmoved
    rw [hlive]
    rcases h.lands_or hentry hfound hwatch hsame hother with hlands | heq
    · exact hlands.own hplace hat
    · rw [heq] at hat ⊢
      exact h.own other hother place hplace hat
  · intro moved hmoved place hplace hwatch' hstray
    rw [hentries] at hmoved
    obtain ⟨other, hother, rfl⟩ := List.mem_map.mp hmoved
    rw [hlive] at hwatch'
    rcases h.lands_or hentry hfound hwatch hsame hother with hlands | heq
    · rw [hlands.same hwf hfind hsound hplace hwatch'] at hstray
      cases hstray
    · rw [heq] at hwatch' hstray ⊢
      obtain ⟨habove, hwhole⟩ := h.whole other hother place hplace hwatch' hstray
      refine ⟨habove, fun third hthird hbelow => ?_⟩
      rw [hentries] at hthird
      obtain ⟨before, hbefore, rfl⟩ := List.mem_map.mp hthird
      rcases h.lands_or hentry hfound hwatch hsame hbefore with hlands | heq
      · obtain ⟨spot, hspot, -, hat⟩ := hlands
        have hnot := h.not_below hwf hfind hsound hother hplace hwatch' hstray hspot
        rw [Path.isBelow_congr hat] at hnot
        exact absurd (hnot.symm.trans hbelow) Bool.false_ne_true
      · rw [heq] at hbelow ⊢
        exact (hwhole before hbefore hbelow).mono (hlive ▸ List.Subset.refl _)

theorem settled_move (h : Arranged tree start t) (hsound : t.source.Sound)
    (hentries : u.table.entries = t.table.entries.map (movedEntry entry.path found.1))
    (hlive : u.source.live = t.source.live) (hplace : place ∈ tree.survey start)
    (hsettled : t.Settled place) : u.Settled place := by
  obtain ⟨other, hother, hwatch', hat⟩ := hsettled
  refine ⟨movedEntry entry.path found.1 other, hentries ▸ List.mem_map_of_mem hother, ?_, ?_⟩
  · rwa [WatchTable.movedEntry_id, hlive]
  · rcases h.lands_or hentry hfound hwatch hsame hother with hlands | heq
    · exact hlands.same hwf hfind hsound hplace (by rwa [WatchTable.movedEntry_id])
    · rwa [heq]

end Arranged

omit hwf hfind

theorem live_iff_of_subset {small big : Source} (hsound : big.Sound)
    (hsubset : small.live ⊆ big.live) {id : WatchId} (hlive : small.isLive id = true)
    {directory : DirectoryId} :
    (id, directory) ∈ small.live ↔ (id, directory) ∈ big.live := by
  refine ⟨fun h => hsubset h, fun h => ?_⟩
  obtain ⟨other, hother⟩ := Source.isLive_iff.mp hlive
  obtain rfl := hsound.eq_of_id h (hsubset hother)
  exact hother

namespace Arranged

theorem of_subset (h : Arranged tree start t) (hentries : u.table.entries ⊆ t.table.entries)
    (hlive : ∀ entry ∈ u.table.entries, ∀ directory,
      (entry.id, directory) ∈ u.source.live ↔ (entry.id, directory) ∈ t.source.live) :
    Arranged tree start u := by
  constructor
  · intro entry hentry found hfound hsame
    exact (hlive entry hentry found.2).mpr (h.own entry (hentries hentry) found hfound hsame)
  · intro entry hentry found hfound hwatch hsame
    obtain ⟨habove, hwhole⟩ :=
      h.whole entry (hentries hentry) found hfound ((hlive entry hentry found.2).mp hwatch) hsame
    refine ⟨habove, fun other hother hbelow => ?_⟩
    obtain ⟨place, hplace, hwatch', hat⟩ := hwhole other (hentries hother) hbelow
    rw [WatchTable.movedEntry_id] at hwatch'
    refine ⟨place, hplace, ?_, hat⟩
    rw [WatchTable.movedEntry_id]
    exact (hlive other hother place.2).mpr hwatch'

theorem of_shed (h : Arranged tree start t) (hregistered : Registered none t) (hu : Shed t u) :
    Arranged tree start u := by
  have hafter := (Registered.lasts tree none).shed hregistered hu
  refine h.of_subset hu.entries fun entry hentry directory => ?_
  exact live_iff_of_subset hregistered.sound hu.source.1.subset
    ((hafter.live entry hentry).resolve_right (by simp))

theorem of_add {id : WatchId} (h : Arranged tree start t) (hregistered : Registered none t)
    (hadd : t.source.add tree path = .ok (id, source)) : Arranged tree start { t with source } := by
  refine h.of_subset (List.Subset.refl _) fun entry hentry directory => ?_
  exact (live_iff_of_subset (hregistered.sound.add hadd) (Source.live_subset_of_add hadd)
    ((hregistered.live entry hentry).resolve_right (by simp))).symm

include hwf hfind

theorem moved (h : Arranged tree start t) (hregistered : Registered none t) {entry : Entry}
    {other : DirectoryId} (hentry : entry ∈ t.table.entries)
    (hfound : (path, other) ∈ tree.survey start) (hlive : (entry.id, other) ∈ t.source.live)
    (hstray : path.same entry.path = false) :
    let u := ({ t with table := t.table.relocate entry.path path } : Tracker).withoutRoot entry.path
    Arranged tree start u ∧ (∀ place ∈ tree.survey start, t.Settled place → u.Settled place) ∧
      u.Settled (path, other) := by
  intro u
  have hentries : u.table.entries = t.table.entries.map (movedEntry entry.path path) := by
    rw [table_withoutRoot, WatchTable.entries_relocate]
  have hsource : u.source = t.source := source_withoutRoot
  refine ⟨?_, ?_, ?_⟩
  · exact h.move hwf hfind hentry hfound hlive hstray hregistered.sound hentries (by rw [hsource])
  · intro place hplace
    exact h.settled_move hwf hfind hentry hfound hlive hstray hregistered.sound hentries
      (by rw [hsource]) hplace
  · obtain ⟨-, hwhole⟩ := h.whole entry hentry _ hfound hlive hstray
    have hlands := hwhole entry hentry (by simp [Path.isBelow])
    refine ⟨_, hentries ▸ List.mem_map_of_mem hentry, ?_, ?_⟩
    · rwa [WatchTable.movedEntry_id, hsource]
    · exact hlands.same hwf hfind hregistered.sound hfound (by rwa [WatchTable.movedEntry_id])

/-- Watching one directory of an arranged subtree puts its entry in place and leaves all
arranged. -/
theorem of_watches (h : Arranged tree start t) (hregistered : Registered none t)
    (hwalk : .entry path true ∈ tree.walk start) (hu : Watches tree path t u) :
    Arranged tree start u ∧ (∀ place ∈ tree.survey start, t.Settled place → u.Settled place) ∧
      ∀ directory, tree.inspect path = .ok (.directory directory) →
        u.Settled (path, directory) := by
  have hsurvey {directory : DirectoryId}
    (hinspect : tree.inspect path = .ok (.directory directory)) :
      (path, directory) ∈ tree.survey start := FileTree.mem_survey_iff.mpr ⟨hwalk, hinspect⟩
  cases hu with
  | gone hgone =>
    exact ⟨h, fun _ _ => id, fun directory hinspect => absurd hinspect (hgone directory)⟩
  | @entered directory id source slot table hinspect hadd hslot hinsert =>
    obtain ⟨found, hfound, hlive⟩ := Source.mem_live_of_add hadd
    obtain rfl := FileTree.eq_of_inspect hinspect hfound
    have hperm := WatchTable.entries_insert? hinsert
    rw [bounded_of_mem_survey (hsurvey hinspect)] at hperm
    have hlands : Lands tree start source ⟨id, path⟩ :=
      ⟨(path, directory), hsurvey hinspect, hlive, Path.same_refl _⟩
    refine ⟨(h.of_add hregistered hadd).enter hwf hfind (hregistered.sound.add hadd) hlands hperm
      rfl, ?_, ?_⟩
    · rintro place - ⟨entry, hentry, hwatch, hsame⟩
      exact ⟨entry, hperm.mem_iff.mpr (List.mem_cons_of_mem _ hentry),
        Source.live_subset_of_add hadd hwatch, hsame⟩
    · intro other hother
      obtain rfl := FileTree.eq_of_inspect hinspect hother
      exact ⟨⟨id, path⟩, hperm.mem_iff.mpr List.mem_cons_self, hlive, Path.same_refl _⟩
  | @kept directory entry hinspect hentry hlive hsame =>
    refine ⟨h, fun _ _ => id, fun other hother => ?_⟩
    obtain rfl := FileTree.eq_of_inspect hinspect hother
    exact ⟨entry, hentry, hlive, Path.same_symm hsame⟩
  | @moved directory entry hinspect hentry hlive hsame =>
    have hstray : path.same entry.path = false :=
      Bool.eq_false_iff.mpr fun hat => Bool.false_ne_true (hsame.symm.trans (Path.same_symm hat))
    obtain ⟨hnext, hkept, hat⟩ := h.moved hwf hfind hregistered hentry (hsurvey hinspect)
      hlive hstray
    refine ⟨hnext, hkept, fun other hother => ?_⟩
    obtain rfl := FileTree.eq_of_inspect hinspect hother
    exact hat

/-- Watching the directories of an arranged subtree one after the other puts their entries in
place. -/
theorem of_watchesEach (h : Arranged tree start t) (hregistered : Registered none t)
    (hwalk : ∀ path ∈ paths, .entry path true ∈ tree.walk start) (hu : WatchesEach tree paths t u) :
    Arranged tree start u ∧ (∀ place ∈ tree.survey start, t.Settled place → u.Settled place) ∧
      ∀ path ∈ paths, ∀ directory, tree.inspect path = .ok (.directory directory) →
        u.Settled (path, directory) := by
  induction hu with
  | nil t => exact ⟨h, fun _ _ => id, fun path hpath => absurd hpath List.not_mem_nil⟩
  | @cons path rest t u v hstep hrest ih =>
    have hhead := hwalk path List.mem_cons_self
    obtain ⟨hnext, hkept, hsettled⟩ := h.of_watches hwf hfind hregistered hhead hstep
    obtain ⟨hlast, hkept', hsettled'⟩ := ih hnext (hregistered.of_watches hstep)
      fun other hother => hwalk other (List.mem_cons_of_mem _ hother)
    refine ⟨hlast, fun place hplace hat => hkept' place hplace (hkept place hplace hat), ?_⟩
    intro other hother directory hinspect
    rcases List.mem_cons.mp hother with rfl | hother
    · exact hkept' _ (FileTree.mem_survey_iff.mpr ⟨hhead, hinspect⟩) (hsettled directory hinspect)
    · exact hsettled' other hother directory hinspect

omit hwf hfind

/-- Where all is arranged, looking up the place of a directory finds its entry. -/
theorem idAt? (h : Arranged tree start t) (hsound : t.source.Sound)
    (hfound : found ∈ tree.survey start) (hsettled : t.Settled found) {id : WatchId}
    (hlive : (id, found.2) ∈ t.source.live) :
    t.table.idAt? found.1 = some id := by
  obtain ⟨entry, hentry, -, hsame⟩ := hsettled
  have hheld : t.table.holdsPath found.1 = true :=
    WatchTable.holdsPath_iff.mpr ⟨entry, hentry, Path.same_symm hsame⟩
  obtain ⟨slot, hslot⟩ := Option.isSome_iff_exists.mp hheld
  obtain ⟨first, hget, hat⟩ := WatchTable.slotAt?_eq_some hslot
  have hown := h.own first (WatchTable.mem_entries_of_get? hget) found hfound (Path.same_symm hat)
  obtain rfl := hsound.eq_of_directory hown hlive
  simp [WatchTable.idAt?, hslot, hget]

end Arranged

end Walks

end Tracker

end TreeWatch
