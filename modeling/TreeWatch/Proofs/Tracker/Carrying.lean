import TreeWatch.Proofs.Tracker.Landing
import TreeWatch.Proofs.Tracker.Subtrees
import TreeWatch.Proofs.WatchTable.Relocation

/-!
# What a completed rename carries along

If the directory at the new path is the one that was known at the old path, or if it is gone again
already, completing a rename is a matter of the table alone: the entries at and below the old path
move, each keeps its slot and its watch, and no watch begins or ends. The root at the old path is
retired, since nothing is there any more.
-/

namespace TreeWatch

namespace Tracker

open TreeWatch.Action
open FileTree (pathOf walkPath)
open WatchTable (moved? movedEntry)

variable {moment : Moment} {tree : FileTree} {source target path : Path} {t u : Tracker}
  {event : Event} {entry : Entry} {id : WatchId} {fits : Path → Prop}

section Written

/-- No entry has the empty path, below which everything would lie. -/
def Written (t : Tracker) : Prop := ∀ entry ∈ t.table.entries, entry.path.bytes ≠ []

theorem bytes_bounded_ne_nil (h : path.bytes ≠ []) : path.bounded.bytes ≠ [] := by
  rw [Path.bounded_eq_take]
  simpa [pathMax] using h

theorem suits_written (h : path.bytes ≠ []) : Suits tree (fun found => found.bytes ≠ []) path := by
  refine ⟨h, fun found hfound => ?_⟩
  obtain rfl | ⟨location, hbelow⟩ := FileTree.eq_or_mem_walkBelow_of_mem_walk hfound
  · exact h
  · obtain ⟨names, -, rfl, -⟩ := FileTree.exists_below_of_mem_walkBelow hbelow
    exact FileTree.bytes_walkPath_ne_nil h names

theorem Written.of_gathers (h : t.Written) (hu : Gathers tree (fun found => found.bytes ≠ []) t u) :
    u.Written := by
  refine hu.entries (fun path => path.bytes ≠ []) h (fun _ => bytes_bounded_ne_nil) ?_
  rintro source target path _ - hfits - hmoved
  obtain ⟨rest, -, rfl⟩ := Option.map_eq_some_iff.mp hmoved
  refine bytes_bounded_ne_nil ?_
  split
  · exact hfits
  · exact Path.bytes_join_ne_nil hfits

theorem Written.lasts (tree : FileTree) : Lasts tree (fun found => found.bytes ≠ []) Written where
  sheds h hu entry hentry := h entry (hu.entries hentry)
  gathers h hu := h.of_gathers hu
  asked h _ := h
  wiped _ := by simp [Written]
  suits _ root _ hdirectory := suits_written (FileTree.bytes_ne_nil_of_isDirectory hdirectory)

theorem Written.after {transition : Transition} (h : transition.before.Written) :
    transition.after.Written := by
  have hlasts := Written.lasts transition.moment.tree
  have hhandle {event : Event} {v : Tracker} (hv : v.Written) :
      (handle event).Ends transition.moment v (fun _ u => u.Written) fun _ u => u.Written := by
    apply hlasts.ends_handle hv
    · exact fun u hu _ entry hentry name _ =>
        suits_written (Path.bytes_child_ne_nil (hu entry hentry) name)
    · exact fun _ u hu => hu
    · exact fun _ u hu entry hentry => hu entry (entries_ended u event.watch hentry)
  exact hlasts.after h (fun _ _ _ => h) (fun _ _ _ _ => hhandle h) fun _ _ => hhandle h

variable {admits : Transition → Prop} {first : Source} {roots : Roots} {policy : Policy}
  {history : List Transition}

/-- Whatever happened, no entry has the empty path. -/
theorem Run.written (h : Run admits (ofRoots first roots policy) history t) : t.Written := by
  refine h.keeps ?_ fun _ _ ht => ht.after
  simp [Written, ofRoots, WatchTable.empty, WatchTable.ofStep, WatchTable.entries]

end Written

section Renaming

/-- With a rename completed that took the entries at and below the old path along. -/
def carried (t : Tracker) (source target : Path) : Tracker :=
  { t with
    table := t.table.relocate source target
    counts := { t.counts with renamed := t.counts.renamed + 1 } }.withoutRoot source

/-- A rename whose target is the directory known under the old path, or no directory any more, moves
the entries and cannot fail. -/
theorem ends_rename_of_known {failed : Fault → Tracker → Prop} (hsound : t.source.Sound)
    (hrefused : target ∉ t.source.refused) (hcached : t.table.idAt? source = some id)
    (hobject : (∃ directory, moment.tree.inspect target = .ok (.directory directory) ∧
      (id, directory) ∈ t.source.live) ∨ moment.tree.isDirectory target = false) :
    (rename source target).Ends moment t (fun _ u => u = t.carried source target) failed := by
  rw [rename, ends_bind, ends_change]
  simp only [ends_bind, ends_state, ends_requestWatch]
  rcases hobject with ⟨directory, hinspect, hlive⟩ | hgone
  · have hadd : t.source.add moment.tree target = .ok (id, t.source) := Source.add_eq_ok_iff.mpr
      ⟨hrefused, directory, hinspect, .inl ⟨hsound.watchOf?_eq_some_iff.mpr hlive, rfl⟩⟩
    simp only [hadd, hcached, if_true, ends_bind, ends_moveEntries, ends_say, ends_retireRoot]
    rfl
  · cases hadd : t.source.add moment.tree target with
    | ok found =>
      obtain ⟨directory, hinspect, -⟩ := Source.mem_live_of_add hadd
      exact absurd (FileTree.isDirectory_of_inspect hinspect) (Bool.eq_false_iff.mp hgone)
    | error error =>
      simp only [hgone, Bool.false_eq_true, if_false, hcached, Option.isSome_some, if_true,
        ends_bind, ends_say, ends_moveEntries, ends_retireRoot]
      rfl

theorem carried_eq (hdistinct : t.roots.live.Pairwise fun a b => a.path.same b.path = false) :
    t.carried source target = { t with
      table := t.table.relocate source target
      roots := t.roots.without (·.path.same source)
      counts := { t.counts with
        renamed := t.counts.renamed + 1
        rootsRetired := t.counts.rootsRetired + if t.roots.isRoot source then 1 else 0 } } := by
  rw [carried, withoutRoot_eq, roots_withoutRoot, counts_withoutRoot,
    Roots.retire_eq_without hdistinct]

/-- With the second half of a rename handled that took the entries along; where no two roots have
one path, nothing is left to tell but what changes. -/
def claimed (t : Tracker) (cookie : Nat) (source target : Path) : Tracker :=
  { t with
    table := t.table.relocate source target
    roots := t.roots.without fun root => root.path.same source
    departures := t.departures.erase cookie
    counts := { t.counts with
      events := t.counts.events + 1
      renamed := t.counts.renamed + 1
      rootsRetired := t.counts.rootsRetired + if t.roots.isRoot source then 1 else 0 } }

variable {departure : Departure} {cookie : Nat} {name : Bytes}

theorem ends_handle_claimed {failed : Fault → Tracker → Prop} (h : Registered none t)
    (hdistinct : t.roots.live.Pairwise fun a b => a.path.same b.path = false)
    (hkind : event.kind = .movedTo) (hdirectory : event.isDirectory = true)
    (hname : event.name = some name) (hcookie : event.cookie = some cookie)
    (hdeparture : t.departures.get? cookie = some departure) (hentry : entry ∈ t.table.entries)
    (hwatch : entry.id = event.watch) (hdraining : event.watch ∉ t.draining)
    (hrefused : entry.path.child name ∉ t.source.refused)
    (hcached : t.table.idAt? departure.path = some id)
    (hobject : (∃ directory, moment.tree.inspect (entry.path.child name) =
      .ok (.directory directory) ∧
      (id, directory) ∈ t.source.live) ∨ moment.tree.isDirectory (entry.path.child name) = false) :
    (handle event).Ends moment t
      (fun _ u => u = t.claimed cookie departure.path (entry.path.child name)) failed := by
  apply ends_handle_claiming hkind hdirectory hname hcookie hdeparture hentry hwatch hdraining h
  let begun : Tracker := { t.counted with departures := t.departures.erase cookie }
  have hcarried : begun.carried departure.path (entry.path.child name) =
      t.claimed cookie departure.path (entry.path.child name) := carried_eq hdistinct
  have hends : (rename departure.path (entry.path.child name)).Ends moment begun
      (fun _ u => u = begun.carried departure.path (entry.path.child name)) failed :=
    ends_rename_of_known h.sound hrefused hcached hobject
  exact hcarried ▸ hends

end Renaming

section Runs

variable {admits : Transition → Prop} {first : Source} {named : Roots} {paths : List Path}
  {policy : Policy} {history : List Transition} {transition : Transition} {departure : Departure}
  {cookie : Nat} {name : Bytes}

theorem exists_after_eq_claimed (hregistered : Registered none transition.before)
    (hdistinct : transition.before.roots.live.Pairwise fun a b => a.path.same b.path = false)
    (hevent : transition.event? = some event) (hkind : event.kind = .movedTo)
    (hdirectory : event.isDirectory = true) (hname : event.name = some name)
    (hcookie : event.cookie = some cookie)
    (hdeparture : transition.before.departures.get? cookie = some departure)
    (hentry : entry ∈ transition.before.table.entries) (hwatch : entry.id = event.watch)
    (hdraining : event.watch ∉ transition.before.draining)
    (hrefused : entry.path.child name ∉ transition.before.source.refused)
    (hcached : transition.before.table.idAt? departure.path = some id)
    (hobject : (∃ directory,
      transition.moment.tree.inspect (entry.path.child name) = .ok (.directory directory) ∧
        (id, directory) ∈ transition.before.source.live) ∨
      transition.moment.tree.isDirectory (entry.path.child name) = false) :
    transition.Succeeds ∧ ∃ source : Source,
      (source = transition.before.source ∨ transition.before.source.next? = some (event, source)) ∧
      source.live = transition.before.source.live ∧
      transition.after = ({ transition.before with source } : Tracker).claimed cookie departure.path
        (entry.path.child name) := by
  have hends : transition.step.act.Ends transition.moment transition.before
      (fun _ u => ∃ source : Source,
        (source = transition.before.source ∨
          transition.before.source.next? = some (event, source)) ∧
        source.live = transition.before.source.live ∧
        u = ({ transition.before with source } : Tracker).claimed cookie departure.path
          (entry.path.child name)) fun _ _ => False := by
    apply Transition.ends_event hevent
    intro source hsource
    obtain ⟨hlives, hnextId, hrefuses⟩ := Source.registry_of_taken (by simp [hkind]) hsource
    have htaken : Registered none { transition.before with source } :=
      hregistered.of_same hlives hnextId rfl
    apply (ends_handle_claimed (t := { transition.before with source }) htaken hdistinct hkind
      hdirectory hname hcookie hdeparture hentry hwatch hdraining (hrefuses ▸ hrefused) hcached
      (hlives ▸ hobject)).imp
    exact fun _ u hu => ⟨source, hsource, hlives, hu⟩
  exact Transition.succeeds_and hends

/-- Whatever happened before, and whatever the tree has become since the rename: if the directory at
the new path is the one that was known at the old path, or if none is there any more, the second
half of the rename is handled without fail. Every slot keeps its watch, the entries at and below the
old path are at the same places below the new one, and all else in the table stays as it is spelt.
No watch begins or ends, none is on its way out that was not, the first half is taken, and if the
old path was that of a live root, that root and no other is retired. -/
theorem completed_rename_carries_the_subtree (hwf : tree.WellFormed)
    (hnamed : Roots.ofPaths tree paths = .ok named) (hlive : first.live = [])
    (h : Run admits (ofRoots first named policy) history t) (hbefore : transition.before = t)
    (hevent : transition.event? = some event) (hkind : event.kind = .movedTo)
    (hdirectory : event.isDirectory = true) (hname : event.name = some name)
    (hcookie : event.cookie = some cookie) (hdeparture : t.departures.get? cookie = some departure)
    (hentry : entry ∈ t.table.entries) (hwatch : entry.id = event.watch)
    (hdraining : event.watch ∉ t.draining) (hrefused : entry.path.child name ∉ t.source.refused)
    (hcached : t.table.idAt? departure.path = some id)
    (hobject : (∃ directory, transition.moment.tree.inspect (entry.path.child name) =
      .ok (.directory directory) ∧
      (id, directory) ∈ t.source.live) ∨
        transition.moment.tree.isDirectory (entry.path.child name) = false) :
    let old := departure.path
    let new := entry.path.child name
    let u := transition.after
    transition.Succeeds ∧
    u = { t with
      source := u.source
      table := u.table
      roots := t.roots.without fun root => root.path.same old
      departures := t.departures.erase cookie
      counts := { t.counts with
        events := t.counts.events + 1
        renamed := t.counts.renamed + 1
        rootsRetired := t.counts.rootsRetired + if t.roots.isRoot old then 1 else 0 } } ∧
    (u.source = t.source ∨ t.source.next? = some (event, u.source)) ∧
    u.source.live = t.source.live ∧
    (∀ slot, (u.table.get? slot).map (·.id) = (t.table.get? slot).map (·.id)) ∧
    (∀ slot other, t.table.get? slot = some other → other.path.isBelow old = false →
      u.table.get? slot = some other) ∧
    ∀ slot id path, t.table.get? slot = some ⟨id, path⟩ → path.isBelow old = true →
      ∃ joined rest, Path.Rebased old new path joined rest ∧
        u.table.get? slot = some ⟨id, ⟨joined.bytes.take 4096⟩⟩ ∧
        (joined.bytes.length ≤ 4096 → u.table.get? slot = some ⟨id, joined⟩) := by
  intro old new u
  subst hbefore
  have hregistered := h.registered hlive
  have hdistinct := h.distinct hwf hnamed
  have hold : old.bytes ≠ [] := by
    obtain ⟨held, hheld, -, hsame⟩ := exists_mem_entries_at hcached
    rw [ne_eq, ← Path.components_eq_nil_iff, ← beq_iff_eq.mp hsame, Path.components_eq_nil_iff]
    exact h.written held hheld
  obtain ⟨hok, source, hsource, hsame, hafter⟩ :=
    exists_after_eq_claimed hregistered hdistinct hevent hkind hdirectory hname hcookie hdeparture
      hentry hwatch hdraining hrefused hcached hobject
  replace hafter : u = ({ transition.before with source } : Tracker).claimed cookie old new :=
    hafter
  have htable : u.table = transition.before.table.relocate old new := by rw [hafter]; rfl
  refine ⟨hok, ?_, ?_, ?_, ?_, ?_, ?_⟩
  · rw [hafter]
    rfl
  · exact hafter ▸ hsource
  · exact hafter ▸ hsame
  · intro slot
    rw [htable, WatchTable.map_id_get?_relocate]
  · intro slot other hget hbelow
    rw [htable]
    exact WatchTable.get?_relocate_of_not_below new hget hbelow
  · intro slot id path hget hbelow
    rw [htable]
    exact WatchTable.exists_get?_relocate hold new hget hbelow

/-- `/r/a`, a root inside the root `/r`, becomes `/r/b` with what it holds, and in another course of
events it is gone again when its arrival is read. Both times the entries move and the root is
retired. -/
theorem completed_rename_carries_the_subtree_of_inner_root :
    let named : Roots := ⟨[some ⟨pathOf [[114]], 1⟩, some ⟨pathOf [[114], [97]], 2⟩], 0⟩
    let before := ((FileTree.empty.putDirectory [[114]]).putDirectory [[114], [97]]).putDirectory
      [[114], [97], [120]]
    let moved := before.relocate [[114], [97]] [[114], [98]]
    let gone := FileTree.empty.putDirectory [[114]]
    let t := outcome (ofRoots .empty named ⟨true, .rescan⟩)
      [(⟨before, 0⟩, .start), (⟨moved, 0⟩, .handle ⟨⟨1⟩, .movedFrom, true, some 7, some [97]⟩)]
    let last : Transition := ⟨⟨moved, 0⟩, t, .handle ⟨⟨1⟩, .movedTo, true, some 7, some [98]⟩⟩
    let late : Transition := ⟨⟨gone, 0⟩, t, .handle ⟨⟨1⟩, .movedTo, true, some 7, some [98]⟩⟩
    last.Succeeds ∧ last.after.source.live = [(⟨1⟩, 1), (⟨2⟩, 2), (⟨3⟩, 3)] ∧
      last.after.table.get? 2 = some ⟨⟨3⟩, pathOf [[114], [98], [120]]⟩ ∧
      last.after.roots = ⟨[some ⟨pathOf [[114]], 1⟩, none], 1⟩ ∧ last.after.counts.renamed = 1 ∧
      late.Succeeds ∧ late.after.source.live = [(⟨1⟩, 1), (⟨2⟩, 2), (⟨3⟩, 3)] ∧
      late.after.table.get? 2 = some ⟨⟨3⟩, pathOf [[114], [98], [120]]⟩ := by
  intro named before moved gone t last late
  have hwf : before.WellFormed := by decide +kernel
  have hnamed : Roots.ofPaths before [pathOf [[114]], pathOf [[114], [97]]] = .ok named := by
    decide +kernel
  have hrun : Run (fun _ => True) (ofRoots .empty named ⟨true, .rescan⟩)
      (transitions _ [(⟨before, 0⟩, .start),
        (⟨moved, 0⟩, .handle ⟨⟨1⟩, .movedFrom, true, some 7, some [97]⟩)]) t :=
    run_transitions fun _ _ => trivial
  have hdeparture : t.departures.get? 7 = some ⟨7, ⟨1⟩, pathOf [[114], [97]], 0⟩ := by
    decide +kernel
  have hentry : ⟨⟨1⟩, pathOf [[114]]⟩ ∈ t.table.entries := by decide +kernel
  have hcached : t.table.idAt? (pathOf [[114], [97]]) = some ⟨2⟩ := by decide +kernel
  have hlive : t.source.live = [(⟨1⟩, 1), (⟨2⟩, 2), (⟨3⟩, 3)] := by decide +kernel
  have hinspect : moved.inspect ((pathOf [[114]]).child [98]) = .ok (.directory 2) := by
    decide +kernel
  have hlast : last.before = t := by dsimp only [last]
  have hlate : late.before = t := by dsimp only [late]
  have hevent : last.event? = some ⟨⟨1⟩, .movedTo, true, some 7, some [98]⟩ := rfl
  have hevent' : late.event? = some ⟨⟨1⟩, .movedTo, true, some 7, some [98]⟩ := rfl
  have hthere := completed_rename_carries_the_subtree hwf hnamed rfl hrun hlast hevent rfl rfl rfl
    rfl hdeparture hentry rfl (by decide +kernel) (by decide +kernel) hcached (.inl ⟨2, hinspect,
      by decide +kernel⟩)
  have hvanished := completed_rename_carries_the_subtree hwf hnamed rfl hrun hlate hevent' rfl
    rfl rfl rfl hdeparture hentry rfl (by decide +kernel) (by decide +kernel) hcached
    (.inr (by decide +kernel))
  exact ⟨hthere.1, hthere.2.2.2.1.trans hlive, by decide +kernel, by decide +kernel,
    by decide +kernel, hvanished.1, hvanished.2.2.2.1.trans hlive, by decide +kernel⟩

end Runs

end Tracker

end TreeWatch
