import TreeWatch.Proofs.FileTree.Identity
import TreeWatch.Proofs.Tracker.Arrangement

/-!
# A walk binds directories to their paths

After a subtree was covered every directory in it has an entry, under whatever path it was known
before. If all was arranged when the walk began, looking up the path of a directory finds the watch
of that very directory. Directories that were swapped are not arranged: the entry of each has to
move to where the other's is, and takes it along.
-/

namespace TreeWatch

namespace Tracker

open TreeWatch.Action
open FileTree (walkPath pathOf pathLimit)

variable {moment : Moment} {tree : FileTree} {start : Path} {t : Tracker} {source : Source}
  {location : Location} {directory : DirectoryId}

/-- What covering a subtree leaves: each of its directories has a live watch with an entry, and the
watch is found at the directory's path if all was arranged before. -/
structure Binds (tree : FileTree) (start : Path) (location : Location) (t u : Tracker) : Prop where
  covered : ∀ names directory, tree.get? (location ++ names) = some (.directory directory) →
    (walkPath start names).bytes.length < pathLimit → Covered directory u
  bound : Arranged tree start t →
    ∀ names directory, tree.get? (location ++ names) = some (.directory directory) →
      (walkPath start names).bytes.length < pathLimit →
      ∀ id, (id, directory) ∈ u.source.live → u.table.idAt? (walkPath start names) = some id

theorem ends_coverSubtree_binds (h : Registered none t) (hwf : moment.tree.WellFormed)
    (hfind : moment.tree.find false start = .ok (location, .directory directory)) :
    (coverSubtree start).Ends moment t
      (fun _ u => Registered none u ∧ Binds moment.tree start location t u) fun _ _ => True := by
  apply (ends_coverSubtree_watches h).imp
  intro watched u hu
  have hwalk : ∀ path ∈ met moment.tree start, .entry path true ∈ moment.tree.walk start :=
    fun _ => mem_filterMap_directory?.mp
  have hregistered : Registered none u := h.of_watchesEach hu
  have hsurvey {names : Location} {found : DirectoryId}
      (hget : moment.tree.get? (location ++ names) = some (.directory found))
      (hshort : (walkPath start names).bytes.length < pathLimit) :
      (walkPath start names, found) ∈ moment.tree.survey start :=
    (FileTree.mem_survey_iff_of_find hwf hfind).mpr ⟨names, rfl, hshort, hget⟩
  refine ⟨hregistered, ?_, ?_⟩
  · intro names found hget hshort
    obtain ⟨hitem, hinspect⟩ := FileTree.mem_survey_iff.mp (hsurvey hget hshort)
    exact hu.covered (mem_filterMap_directory?.mpr hitem) hinspect
  · intro harranged names found hget hshort id hlive
    have hfound := hsurvey hget hshort
    obtain ⟨hitem, hinspect⟩ := FileTree.mem_survey_iff.mp hfound
    obtain ⟨hlast, -, hsettled⟩ := harranged.of_watchesEach hwf hfind h hwalk hu
    exact hlast.idAt? hregistered.sound hfound
      (hsettled _ (mem_filterMap_directory?.mpr hitem) found hinspect) hlive

section Runs

variable {admits : Transition → Prop} {roots : Roots} {policy : Policy} {history : List Transition}

/-- Whatever happened before, and under whatever paths the directories of a subtree are known: once
the subtree is covered each of them has one live watch, which has an entry; and where all was
arranged, that watch is what is found at the path of the directory. -/
theorem covered_directories_are_bound (hlive : source.live = [])
    (h : Run admits (ofRoots source roots policy) history t) (hwf : moment.tree.WellFormed)
    (hfind : moment.tree.find false start = .ok (location, .directory directory)) {watched : Nat}
    (hcover : (coverSubtree start moment t).result = .ok watched) :
    let u := (coverSubtree start moment t).state
    ∀ names found, moment.tree.get? (location ++ names) = some (.directory found) →
      (walkPath start names).bytes.length < pathLimit →
      ∃ id, (∀ other, (other, found) ∈ u.source.live ↔ other = id) ∧
        (∃ entry ∈ u.table.entries, entry.id = id) ∧
        (Arranged moment.tree start t → u.table.idAt? (walkPath start names) = some id) := by
  intro u names found hget hshort
  obtain ⟨hregistered, hbinds⟩ :=
    (ends_coverSubtree_binds (h.registered hlive) hwf hfind).of_ok hcover
  obtain ⟨entry, hentry, hwatch⟩ := hbinds.covered names found hget hshort
  refine ⟨entry.id, fun other => ⟨fun hother => ?_, fun heq => heq ▸ hwatch⟩,
    ⟨entry, hentry, rfl⟩, ?_⟩
  · exact hregistered.sound.eq_of_directory hother hwatch
  · exact fun harranged => hbinds.bound harranged names found hget hshort entry.id hwatch

/-- A directory was renamed and another one made in it. The walk moves two entries and makes a
third. -/
theorem covered_directories_are_bound_of_rename :
    let before := ((FileTree.empty.putDirectory [[114]]).putDirectory [[114], [97]]).putDirectory
      [[114], [97], [120]]
    let after := (before.relocate [[114], [97]] [[114], [98]]).putDirectory [[114], [98], [121]]
    let t := outcome (ofRoots .empty ⟨[some ⟨pathOf [[114]], 1⟩], 0⟩ ⟨true, .rescan⟩)
      [(⟨before, 0⟩, .start)]
    let u := (coverSubtree (pathOf [[114]]) ⟨after, 0⟩ t).state
    t.table.idAt? (pathOf [[114], [98], [120]]) = none ∧ Arranged after (pathOf [[114]]) t ∧
      u.table.idAt? (pathOf [[114], [98], [120]]) = some ⟨3⟩ := by
  intro before after t u
  have hafter : after.WellFormed := by decide +kernel
  have hrun : Run (fun _ => True) (ofRoots .empty ⟨[some ⟨pathOf [[114]], 1⟩], 0⟩ ⟨true, .rescan⟩)
      (transitions _ [(⟨before, 0⟩, .start)]) t := run_transitions fun _ _ => trivial
  have hfind : after.find false (pathOf [[114]]) = .ok ([[114]], .directory 1) := by decide +kernel
  have hcover : (coverSubtree (pathOf [[114]]) ⟨after, 0⟩ t).result = .ok 1 := by decide +kernel
  have harranged : Arranged after (pathOf [[114]]) t := by decide +kernel
  obtain ⟨id, honly, -, hbound⟩ := covered_directories_are_bound rfl hrun hafter hfind hcover
    [[98], [120]] 3 (by decide +kernel) (by decide +kernel)
  have hid : ⟨3⟩ = id := (honly ⟨3⟩).mp (by decide +kernel)
  subst hid
  exact ⟨by decide +kernel, harranged, hbound harranged⟩

def twoDirectories : FileTree :=
  ((FileTree.empty.putDirectory [[114]]).putDirectory [[114], [97]]).putDirectory [[114], [98]]

def swappedDirectories : FileTree :=
  ((twoDirectories.relocate [[114], [97]] [[114], [116]]).relocate [[114], [98]] [[114],
    [97]]).relocate [[114], [116]] [[114], [98]]

/-- After two directories were swapped a walk leaves one of them without its path: no two entries
have the same path before it, and the walk succeeds. -/
theorem swapped_directory_is_not_bound :
    let t := outcome (ofRoots .empty ⟨[some ⟨pathOf [[114]], 1⟩], 0⟩ ⟨true, .rescan⟩)
      [(⟨twoDirectories, 0⟩, .start)]
    let reply := coverSubtree (pathOf [[114]]) ⟨swappedDirectories, 0⟩ t
    t.table.sharedPaths = [] ∧ reply.result = .ok 0 ∧
      swappedDirectories.find false (pathOf [[114], [97]]) = .ok ([[114], [97]], .directory 3) ∧
      (⟨3⟩, 3) ∈ reply.state.source.live ∧
      reply.state.table.idAt? (pathOf [[114], [97]]) = none := by
  decide +kernel

end Runs

end Tracker

end TreeWatch
