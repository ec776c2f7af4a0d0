import TreeWatch.Proofs.Roots.Nesting
import TreeWatch.Proofs.Tracker.Accounting
import TreeWatch.Proofs.Tracker.Rebuild
import TreeWatch.Proofs.Tracker.Runs

/-!
# Live roots are monitored

Where a root is live the table has an entry at its path. An entry that goes takes the root at its
path with it, and so does one that moves. What moves along below another entry does not, and that
can only concern a root inside another root: every entry continues the path of a root, so an entry
above a root is below another one, or is that root's.

A rebuild leaves no live root without an entry, unless the path of one leads through a link by now:
then one walk may take along what another one found.
-/

namespace TreeWatch

namespace Tracker

open TreeWatch.Action
open FileTree (pathOf)

variable {moment : Moment} {tree : FileTree} {fits : Path → Prop} {t u v : Tracker} {path : Path}
  {named : Roots} {event : Event} {root : Root} {entry : Entry} {history : List Transition}

/-- A tracker of some of the named roots, with entries only at and below named roots. -/
structure Grounded (named : Roots) (t : Tracker) : Prop where
  live : t.roots.live.Sublist named.live
  entries : ∀ entry ∈ t.table.entries, named.ContinuedBy entry.path

theorem same_eq_false_of_withoutRoot (hproper : named.Proper)
    (hlive : t.roots.live.Sublist named.live) (hroot : root ∈ (t.withoutRoot path).roots.live) :
    root.path.same path = false := by
  rw [live_withoutRoot] at hroot
  exact Roots.same_eq_false_of_mem_eraseP (hproper.distinct.sublist hlive) hroot

theorem live_withoutRoot_sublist (t : Tracker) (path : Path) :
    (t.withoutRoot path).roots.live.Sublist t.roots.live := by
  rw [live_withoutRoot]
  exact List.eraseP_sublist

section Shedding

theorem Sheds.live (h : Sheds t u) : u.roots.live.Sublist t.roots.live := by
  cases h with
  | noted departures counts hrebuilds => exact List.Sublist.refl _
  | retired path => exact live_withoutRoot_sublist t path
  | drained id => simp
  | gaveUp hget =>
    refine (live_withoutRoot_sublist _ _).trans ?_
    simp
  | freed hget hdraining counts hrebuilds => exact live_withoutRoot_sublist _ _

theorem Shed.live (h : Shed t u) : u.roots.live.Sublist t.roots.live := by
  induction h with
  | refl => exact List.Sublist.refl _
  | tail _ hstep ih => exact hstep.live.trans ih

theorem live_ended_sublist (t : Tracker) (id : WatchId) :
    (t.ended id).roots.live.Sublist t.roots.live := by
  obtain ⟨h, -⟩ | ⟨slot, entry, -, -, h⟩ := ended_eq_or t id
  · simp [h]
  · rw [h]
    exact live_withoutRoot_sublist _ _

theorem Grounded.of_shed (h : Grounded named t) (hu : Shed t u) : Grounded named u :=
  ⟨hu.live.trans h.live, fun entry hentry => h.entries entry (hu.entries hentry)⟩

theorem Grounded.ended (h : Grounded named t) (id : WatchId) : Grounded named (t.ended id) :=
  ⟨(live_ended_sublist t id).trans h.live, fun entry hentry =>
    h.entries entry (entries_ended t id hentry)⟩

/-- An entry whose slot is freed and whose root is retired with it was not at a root that is still
live. -/
theorem mem_entries_of_erase {slot : Nat} {erased : Entry} (hproper : named.Proper)
    (hlive : t.roots.live.Sublist named.live) (hget : t.table.get? slot = some erased)
    (hroot : root ∈ (t.withoutRoot erased.path).roots.live) (hentry : entry ∈ t.table.entries)
    (hsame : entry.path.same root.path = true) : entry ∈ (t.table.erase slot).entries := by
  rcases List.mem_cons.mp ((WatchTable.entries_erase hget).mem_iff.mp hentry) with rfl | hentry
  · have hne := same_eq_false_of_withoutRoot hproper hlive hroot
    exact absurd (Path.same_symm hsame) (by simp [hne])
  · exact hentry

theorem Shed.mem_entries (hproper : named.Proper) (hlive : t.roots.live.Sublist named.live)
    (h : Shed t u) (hroot : root ∈ u.roots.live) (hentry : entry ∈ t.table.entries)
    (hsame : entry.path.same root.path = true) : entry ∈ u.table.entries := by
  induction h with
  | refl => exact hentry
  | @tail v w hshed hstep ih =>
    have hbefore := ih (hstep.live.subset hroot)
    have hlive := (Shed.live hshed).trans hlive
    cases hstep with
    | noted departures counts hrebuilds => exact hbefore
    | retired path => simpa using hbefore
    | drained id => simpa using hbefore
    | gaveUp hget =>
      rw [table_withoutRoot]
      refine mem_entries_of_erase hproper hlive hget ?_ hbefore hsame
      simpa using hroot
    | freed hget hdraining counts hrebuilds =>
      rw [table_withoutRoot]
      refine mem_entries_of_erase hproper hlive hget ?_ hbefore hsame
      simpa using hroot

theorem mem_entries_ended {id : WatchId} (hproper : named.Proper)
    (hlive : t.roots.live.Sublist named.live) (hroot : root ∈ (t.ended id).roots.live)
    (hentry : entry ∈ t.table.entries) (hsame : entry.path.same root.path = true) :
    entry ∈ (t.ended id).table.entries := by
  obtain ⟨h, -⟩ | ⟨slot, erased, hget, -, h⟩ := ended_eq_or t id
  · simpa [h] using hentry
  · rw [h, table_withoutRoot]
    refine mem_entries_of_erase hproper hlive hget ?_ hentry hsame
    rw [h] at hroot
    simpa using hroot

end Shedding

section Gathering

theorem Gathers.live (h : Gathers tree fits t u) : u.roots.live.Sublist t.roots.live := by
  cases h with
  | noted counts hrebuilds => exact List.Sublist.refl _
  | retired path => exact live_withoutRoot_sublist t path
  | requested hadd hentry => exact List.Sublist.refl _
  | entered hadd hslot hinsert hfits => exact List.Sublist.refl _
  | moved hheld hfits => exact live_withoutRoot_sublist _ _

theorem Gathered.live (h : Gathered tree fits t u) : u.roots.live.Sublist t.roots.live := by
  induction h with
  | refl => exact List.Sublist.refl _
  | tail _ hstep ih => exact hstep.live.trans ih

variable (hproper : named.Proper)

include hproper

theorem Grounded.suits (hwf : tree.WellFormed) (hpath : named.ContinuedBy path) :
    Suits tree named.ContinuedBy path := by
  refine ⟨hpath, fun found hfound => ?_⟩
  obtain ⟨names, hnames, rfl⟩ := FileTree.exists_walkPath_of_mem_walk hwf hfound
  exact hpath.walkPath hproper hnames

theorem Grounded.of_gathers (h : Grounded named t) (hu : Gathers tree named.ContinuedBy t u) :
    Grounded named u := by
  refine ⟨hu.live.trans h.live, hu.entries named.ContinuedBy h.entries
    (fun _ hfits => hfits.bounded) ?_⟩
  intro source target path moved hheld hfits _ hmoved
  obtain ⟨holder, hholder, hsame⟩ := WatchTable.holdsPath_iff.mp hheld
  have hsource : source.components ≠ [] := by
    rw [← beq_iff_eq.mp hsame]
    exact (h.entries holder hholder).components_ne_nil hproper
  exact (hfits.moved? hproper hsource hmoved).bounded

theorem Grounded.of_gathered (h : Grounded named t) (hu : Gathered tree named.ContinuedBy t u) :
    Grounded named u := by
  induction hu with
  | refl => exact h
  | tail _ hstep ih => exact ih.of_gathers hproper hstep

/-- Gathering keeps every entry under its watch, and an entry at a root that stays live it takes
elsewhere only from inside another root. -/
theorem Gathers.carries (h : Grounded named t) (hu : Gathers tree fits t u)
    (hentry : entry ∈ t.table.entries) : ∃ other ∈ u.table.entries, other.id = entry.id ∧
      ∀ root ∈ u.roots.live, entry.path.same root.path = true →
        other.path.same root.path = true ∨ named.Nests root.path := by
  cases hu with
  | noted counts hrebuilds => exact ⟨entry, hentry, rfl, fun _ _ => .inl⟩
  | retired path => exact ⟨entry, by simpa using hentry, rfl, fun _ _ => .inl⟩
  | requested hadd hheld => exact ⟨entry, hentry, rfl, fun _ _ => .inl⟩
  | entered hadd hslot hinsert hfits =>
    refine ⟨entry, ?_, rfl, fun _ _ => .inl⟩
    exact (WatchTable.entries_insert? hinsert).mem_iff.mpr (List.mem_cons_of_mem _ hentry)
  | @moved source target hheld hfits =>
    refine ⟨WatchTable.movedEntry source target entry, ?_, WatchTable.movedEntry_id _ _ _, ?_⟩
    · rw [table_withoutRoot, WatchTable.entries_relocate]
      exact List.mem_map_of_mem hentry
    · intro root hroot hsame
      have hne : root.path.same source = false :=
        same_eq_false_of_withoutRoot (t := { t with table := t.table.relocate source target })
          hproper h.live hroot
      unfold WatchTable.movedEntry
      cases hmoved : WatchTable.moved? source target entry.path with
      | none => exact .inl hsame
      | some moved =>
        have hbelow : entry.path.isBelow source = true := by
          obtain ⟨rest, hrest, -⟩ := Option.map_eq_some_iff.mp hmoved
          unfold Path.below? at hrest
          split at hrest
          · next hbelow => exact hbelow
          · exact absurd hrest (by simp)
        -- The place that moves has an entry, which lies below a root; this root lies further below.
        obtain ⟨holder, hholder, hholds⟩ := WatchTable.holdsPath_iff.mp hheld
        refine .inr ((h.entries holder hholder).nests hproper ?_ ?_)
        · rwa [Path.isBelow_congr_base hholds, ← Path.isBelow_congr hsame]
        · exact Bool.eq_false_iff.mpr fun hat =>
            Bool.false_ne_true (hne.symm.trans (Path.same_trans hat hholds))

theorem Gathered.carries (h : Grounded named t) (hu : Gathered tree named.ContinuedBy t u)
    (hentry : entry ∈ t.table.entries) : ∃ other ∈ u.table.entries, other.id = entry.id ∧
      ∀ root ∈ u.roots.live, entry.path.same root.path = true →
        other.path.same root.path = true ∨ named.Nests root.path := by
  induction hu with
  | refl => exact ⟨entry, hentry, rfl, fun _ _ => .inl⟩
  | tail hgathered hstep ih =>
    obtain ⟨other, hother, hid, hroots⟩ := ih
    obtain ⟨last, hlast, hid', hroots'⟩ :=
      hstep.carries hproper (h.of_gathered hproper hgathered) hother
    refine ⟨last, hlast, hid'.trans hid, fun root hroot hsame => ?_⟩
    exact (hroots root (hstep.live.subset hroot) hsame).elim (hroots' root hroot) .inr

end Gathering

section Covering

variable (hproper : named.Proper) (hwf : moment.tree.WellFormed)

include hproper hwf

theorem suits_root (hroot : root ∈ named.live)
    (hdirectory : moment.tree.isDirectory root.path = true) :
    Suits moment.tree named.ContinuedBy root.path :=
  Grounded.suits hproper hwf
    (.of_root hroot (Nat.le_of_lt (FileTree.length_lt_of_isDirectory hdirectory)))

/-- Covering leaves no live root without an entry, unless one walk took along what another one
found. -/
theorem ends_coverRoots_grounded (h : Grounded named t) {roots : List Root}
    (hroots : ∀ root ∈ roots, root ∈ named.live) :
    (coverRoots (roots.map (·.path))).Ends moment t
      (fun _ u => Gathered moment.tree named.ContinuedBy t u ∧
        ∀ root ∈ roots, root ∈ u.roots.live →
          u.table.holdsPath root.path = true ∨ named.Nests root.path)
      fun _ _ => True := by
  induction roots generalizing t with
  | nil => exact ends_pure.mpr ⟨.refl, by simp⟩
  | cons first rest ih =>
    rw [List.map_cons, coverRoots, ends_bind]
    refine (ends_coverRoot_gathered t
      (suits_root hproper hwf (hroots first List.mem_cons_self))).mono ?_ fun _ _ _ => trivial
    rintro _ u ⟨v, hv, hcovered⟩
    have hu : Gathered moment.tree named.ContinuedBy t u := by
      rcases hcovered with ⟨rfl, -⟩ | rfl
      · exact hv
      · exact hv.tail (.retired v first.path)
    rw [ends_bind]
    refine (ih (h.of_gathered hproper hu) fun root hroot =>
      hroots root (List.mem_cons_of_mem _ hroot)).imp ?_
    rintro _ w ⟨hw, hrest⟩
    refine ends_pure.mpr ⟨hu.trans hw, fun root hroot hlive => ?_⟩
    rcases List.mem_cons.mp hroot with rfl | hroot
    · rcases hcovered with ⟨rfl, hheld⟩ | rfl
      · obtain ⟨entry, hentry, hsame⟩ := WatchTable.holdsPath_iff.mp hheld
        obtain ⟨other, hother, -, hcarried⟩ :=
          Gathered.carries hproper (h.of_gathered hproper hu) hw hentry
        exact (hcarried root hlive hsame).imp_left fun hsame =>
          WatchTable.holdsPath_iff.mpr ⟨other, hother, hsame⟩
      · have hne := same_eq_false_of_withoutRoot hproper
          ((Gathered.live hv).trans h.live) ((Gathered.live hw).subset hlive)
        simp at hne
    · exact hrest root hroot hlive

theorem ends_cover_grounded (h : Grounded named t) :
    cover.Ends moment t
      (fun _ u => Gathered moment.tree named.ContinuedBy t u ∧
        ∀ root ∈ u.roots.live, u.table.holdsPath root.path = true ∨ named.Nests root.path)
      fun _ _ => True := by
  rw [cover, ends_bind, ends_state]
  refine (ends_coverRoots_grounded hproper hwf h fun root hroot => h.live.subset hroot).imp ?_
  rintro _ u ⟨hu, hroots⟩
  exact ⟨hu, fun root hroot => hroots root ((Gathered.live hu).subset hroot) hroot⟩

theorem ends_cover_bare (h : Grounded named t) (hbare : t.Bare) :
    cover.Ends moment t
      (fun _ u => Gathered moment.tree named.ContinuedBy t u ∧
        ∀ root ∈ u.roots.live, u.table.holdsPath root.path = true ∨
          named.Nests root.path ∧ ∃ root ∈ t.roots.live, ¬ root.AvoidsLinks moment.tree)
      fun _ _ => True := by
  have hcover := ends_cover_grounded hproper hwf h
  by_cases hlinks : ∀ root ∈ t.roots.live, root.AvoidsLinks moment.tree
  · refine (hcover.and (@Bare.ends_cover _ _ moment.now hwf hbare hlinks)).mono ?_
      fun _ _ _ => trivial
    rintro n u ⟨⟨hu, -⟩, hrebuilt⟩
    exact ⟨hu, fun root hroot => .inl (hrebuilt.holdsPath hwf hlinks hroot)⟩
  · refine hcover.imp ?_
    rintro n u ⟨hu, hroots⟩
    refine ⟨hu, fun root hroot => (hroots root hroot).imp_right fun hnests => ⟨hnests, ?_⟩⟩
    simpa only [not_forall, exists_prop] using hlinks

end Covering

section Upholding

/-- The watch at a path is at another path afterwards. -/
def Strays (t u : Tracker) (path : Path) : Prop :=
  ∃ a ∈ t.table.entries, ∃ b ∈ u.table.entries,
    a.id = b.id ∧ a.path.same path = true ∧ b.path.same path = false

/-- The table was built anew while the path of a live root led through a link. -/
def Relinked (tree : FileTree) (t u : Tracker) : Prop :=
  u.counts.rebuilds ≠ t.counts.rebuilds ∧ ∃ root ∈ t.roots.live, ¬ root.AvoidsLinks tree

/-- What becomes of the live roots: those that had an entry have one, but for those inside other
roots whose entries moved along with something. -/
structure Upholds (named : Roots) (tree : FileTree) (t u : Tracker) : Prop where
  grounded : Grounded named u
  live : u.roots.live ⊆ t.roots.live
  held : ∀ root ∈ u.roots.live, t.table.holdsPath root.path = true →
    u.table.holdsPath root.path = true ∨
      named.Nests root.path ∧ (Strays t u root.path ∨ Relinked tree t u)

namespace Upholds

theorem of_same (h : Grounded named t) (htable : u.table = t.table) (hroots : u.roots = t.roots) :
    Upholds named tree t u :=
  ⟨⟨hroots ▸ h.live, htable ▸ h.entries⟩, hroots ▸ List.Subset.refl _,
    fun _ _ hheld => .inl (htable ▸ hheld)⟩

theorem of_shed (hproper : named.Proper) (h : Grounded named t) (hu : Shed t u) :
    Upholds named tree t u := by
  refine ⟨h.of_shed hu, hu.live.subset, fun root hroot hheld => .inl ?_⟩
  obtain ⟨entry, hentry, hsame⟩ := WatchTable.holdsPath_iff.mp hheld
  exact WatchTable.holdsPath_iff.mpr
    ⟨entry, hu.mem_entries hproper h.live hroot hentry hsame, hsame⟩

theorem of_gathered (hproper : named.Proper) (h : Grounded named t) (hu : Shed t u)
    (hv : Gathered tree named.ContinuedBy u v) : Upholds named tree t v := by
  have hgrounded := h.of_shed hu
  refine ⟨hgrounded.of_gathered hproper hv, fun root hroot => hu.live.subset (hv.live.subset hroot),
    ?_⟩
  intro root hroot hheld
  obtain ⟨entry, hentry, hsame⟩ := WatchTable.holdsPath_iff.mp hheld
  have hkept := hu.mem_entries hproper h.live (hv.live.subset hroot) hentry hsame
  obtain ⟨other, hother, hid, hcarried⟩ := hv.carries hproper hgrounded hkept
  cases hthere : other.path.same root.path with
  | true => exact .inl (WatchTable.holdsPath_iff.mpr ⟨other, hother, hthere⟩)
  | false =>
    have hnests := (hcarried root hroot hsame).resolve_left (by simp [hthere])
    exact .inr ⟨hnests, .inl ⟨entry, hentry, other, hother, hid.symm, hsame, hthere⟩⟩

theorem ended (hproper : named.Proper) (h : Grounded named t) (hu : Shed t u) (id : WatchId) :
    Upholds named tree t (u.ended id) := by
  have hlive := live_ended_sublist u id
  refine ⟨(h.of_shed hu).ended id, fun root hroot => hu.live.subset (hlive.subset hroot), ?_⟩
  intro root hroot hheld
  obtain ⟨entry, hentry, hsame⟩ := WatchTable.holdsPath_iff.mp hheld
  have hkept := hu.mem_entries hproper h.live (hlive.subset hroot) hentry hsame
  exact .inl (WatchTable.holdsPath_iff.mpr
    ⟨entry, mem_entries_ended hproper (hu.live.trans h.live) hroot hkept hsame, hsame⟩)

end Upholds

variable (hproper : named.Proper) (hwf : moment.tree.WellFormed)

include hproper hwf

theorem ends_rebuild_upholds (h : Grounded named t) (hu : Shed t u) :
    rebuild.Ends moment u (fun _ v => Upholds named moment.tree t v) fun _ _ => True := by
  rw [ends_rebuild]
  split
  · trivial
  · have hwiped : Grounded named u.wiped := ⟨hu.live.trans h.live, by simp⟩
    have hbare : u.wiped.Bare := ⟨rfl, rfl, entries_wiped _, rfl, rfl⟩
    refine (ends_cover_bare hproper hwf hwiped hbare).imp ?_
    rintro n v ⟨hv, hroots⟩
    refine ⟨hwiped.of_gathered hproper hv, fun root hroot => hu.live.subset (hv.live.subset hroot),
      ?_⟩
    intro root hroot _
    refine (hroots root hroot).imp_right (And.imp_right ?_)
    rintro ⟨other, hother, hlink⟩
    refine .inr ⟨?_, other, hu.live.subset hother, hlink⟩
    have hbegun : v.counts.rebuilds = u.counts.rebuilds + 1 := (Keeps.of_gathered hv).rebuilds
    have hsame : u.counts.rebuilds = t.counts.rebuilds := (Keeps.of_shed hu).rebuilds
    omega

theorem ends_resolveDistrust_upholds {why : Distrust} (h : Grounded named t) (hu : Shed t u) :
    (resolveDistrust why).Ends moment u (fun _ v => Upholds named moment.tree t v)
      fun _ _ => True := by
  rw [ends_resolveDistrust]
  split
  · trivial
  · exact ends_rebuild_upholds hproper hwf h hu

theorem ends_handle_upholds (h : Grounded named t)
    (hname : ∀ name ∈ event.name, slash ∉ name) :
    (handle event).Ends moment t (fun _ u => Upholds named moment.tree t u) fun _ _ => True := by
  have hreceived := shed_received t event
  apply ends_handle_of
  · exact fun _ u hu => .of_shed hproper h (hreceived.trans hu)
  · exact fun _ u v hu hv => .of_gathered hproper h (hreceived.trans hu) hv
  · exact fun _ _ _ _ _ _ => trivial
  · exact fun _ entry hentry name hsome => Grounded.suits hproper hwf
      (((h.of_shed hreceived).entries entry hentry).child hproper (hname name hsome))
  · exact fun _ _ _ => ends_resolveDistrust_upholds hproper hwf h hreceived
  · intro _
    rw [ends_onOverflow]
    split
    · trivial
    · exact ends_rebuild_upholds hproper hwf h (hreceived.tail (.noted _ _ _ rfl))
  · exact fun _ => .ended hproper h hreceived event.watch

end Upholding

section Runs

/-- A step that succeeds, in a file tree in which everything has its place, with an event that names
an entry of the watched directory if it names any. -/
structure Transition.Proceeds (transition : Transition) : Prop where
  succeeds : transition.Succeeds
  wellFormed : transition.moment.tree.WellFormed
  named : ∀ event ∈ transition.event?, ∀ name ∈ event.name, slash ∉ name

/-- The watch at a path is at another path afterwards, or the table was built while the path of a
live root led through a link. -/
def Transition.Displaces (transition : Transition) (path : Path) : Prop :=
  Strays transition.before transition.after path ∨
    (transition.step = .start ∨
        transition.after.counts.rebuilds ≠ transition.before.counts.rebuilds) ∧
      ∃ root ∈ transition.before.roots.live, ¬ root.AvoidsLinks transition.moment.tree

variable {transition : Transition} (hproper : named.Proper)

include hproper

theorem Transition.upholds (hproceeds : transition.Proceeds)
    (h : Grounded named transition.before) :
    Upholds named transition.moment.tree transition.before transition.after := by
  obtain ⟨hsucceeds, hwf, hnamed⟩ := hproceeds
  refine hsucceeds.of_ends (Transition.ends_act ?_ ?_ ?_ ?_ ?_ ?_ ?_)
  · exact fun _ _ _ => .of_same h rfl rfl
  · exact fun _ => (ends_cover_grounded hproper hwf h).imp
      fun _ u hu => .of_gathered hproper h .refl hu.1
  · intro event source hstep hnext
    have h' : Grounded named { transition.before with source } := ⟨h.live, h.entries⟩
    have hname := hnamed event (by simp [Transition.event?, hstep, hnext])
    refine (ends_handle_upholds hproper hwf h' hname).imp ?_
    exact fun _ u hu => ⟨hu.grounded, hu.live, hu.held⟩
  · exact fun event hstep =>
      ends_handle_upholds hproper hwf h (hnamed event (by simp [Transition.event?, hstep]))
  · exact .of_shed hproper h (shed_expired _)
  · rw [ends_check]
    split
    · exact ends_resolveDistrust_upholds hproper hwf h .refl
    · exact .of_same h rfl rfl
  · exact ends_rebuild_upholds hproper hwf h .refl

variable {first : Tracker} {lost : Path → Prop}

/-- Along a run live roots keep their entries, but for what the steps displaced. -/
theorem Run.held_or (h : Run Transition.Proceeds first history t) (hgrounded : Grounded named first)
    (hfirst : ∀ root ∈ first.roots.live,
      first.table.holdsPath root.path = true ∨ named.Nests root.path ∧ lost root.path) :
    ∀ root ∈ t.roots.live, t.table.holdsPath root.path = true ∨ named.Nests root.path ∧
      (lost root.path ∨ ∃ transition ∈ history, transition.Displaces root.path) := by
  induction h generalizing lost with
  | nil t => exact fun root hroot => (hfirst root hroot).imp_right (And.imp_right .inl)
  | @cons transition rest u hproceeds _ ih =>
    have hupholds := transition.upholds hproper hproceeds hgrounded
    have hnext : ∀ root ∈ transition.after.roots.live,
        transition.after.table.holdsPath root.path = true ∨
          named.Nests root.path ∧ (lost root.path ∨ transition.Displaces root.path) := by
      intro root hroot
      rcases hfirst root (hupholds.live hroot) with hheld | ⟨hnests, hlost⟩
      · refine (hupholds.held root hroot hheld).imp_right (And.imp_right fun hdisplaces => .inr ?_)
        exact hdisplaces.imp_right fun ⟨hrebuilds, hlinks⟩ => ⟨.inr hrebuilds, hlinks⟩
      · exact .inr ⟨hnests, .inl hlost⟩
    intro root hroot
    refine (@ih (fun path => lost path ∨ transition.Displaces path) hupholds.grounded hnext root
      hroot).imp_right (And.imp_right ?_)
    rintro ((hlost | hdisplaces) | ⟨other, hother, hdisplaces⟩)
    · exact .inl hlost
    · exact .inr ⟨transition, List.mem_cons_self, hdisplaces⟩
    · exact .inr ⟨other, List.mem_cons_of_mem _ hother, hdisplaces⟩

omit hproper

/-- Every live root has an entry at its path, whatever happened, unless the root lies inside another
one and its entry moved along with something above it, or was taken along through a link. -/
theorem live_roots_are_held {tree : FileTree} {paths : List Path} {policy : Policy}
    {moment : Moment} (hwf : tree.WellFormed) (hnamed : Roots.ofPaths tree paths = .ok named)
    (h : Run Transition.Proceeds (ofRoots .empty named policy)
      (⟨moment, ofRoots .empty named policy, .start⟩ :: history) t) :
    ∀ root ∈ t.roots.live, t.table.holdsPath root.path = true ∨ named.Nests root.path ∧
      ∃ transition ∈ ⟨moment, ofRoots .empty named policy, .start⟩ :: history,
        transition.Displaces root.path := by
  have hproper := Roots.proper_of_ofPaths hwf hnamed
  generalize hstart : (⟨moment, ofRoots .empty named policy, .start⟩ : Transition) = start at h ⊢
  obtain ⟨⟨hsucceeds, hmoment, -⟩, -, hrest⟩ := h.cons_inv
  have hfresh : Grounded named (ofRoots .empty named policy) := ⟨List.Sublist.refl _, by
    simp [ofRoots, WatchTable.empty, WatchTable.ofStep, WatchTable.entries]⟩
  have hends : start.step.act.Ends start.moment start.before
      (fun _ u => Grounded named u ∧ ∀ root ∈ u.roots.live, u.table.holdsPath root.path = true ∨
        named.Nests root.path ∧ start.Displaces root.path) fun _ _ => True := by
    subst hstart
    refine ends_bind.mpr (ends_start.mpr ((ends_cover_bare hproper hmoment hfresh
      ⟨rfl, rfl, rfl, rfl, rfl⟩).imp ?_))
    rintro n u ⟨hu, hroots⟩
    refine ⟨hfresh.of_gathered hproper hu, fun root hroot => (hroots root hroot).imp_right ?_⟩
    exact And.imp_right fun hlink => .inr ⟨.inl rfl, hlink⟩
  obtain ⟨hgrounded, hheld⟩ := hsucceeds.of_ends hends
  intro root hroot
  refine (hrest.held_or hproper hgrounded hheld root hroot).imp_right (And.imp_right ?_)
  rintro (hdisplaces | ⟨transition, htransition, hdisplaces⟩)
  · exact ⟨start, List.mem_cons_self, hdisplaces⟩
  · exact ⟨transition, List.mem_cons_of_mem _ htransition, hdisplaces⟩

/-- A root, a directory in it, and one more root in that. -/
def nestedRoots : FileTree :=
  ((FileTree.empty.putDirectory [[114]]).putDirectory [[114], [97]]).putDirectory [[114],
    [97], [98]]

/-- A directory that holds a root and lies inside another root is renamed. Every event is what a
kernel would report. -/
def renamedBetween : List (Moment × Step) :=
  let after : Moment := ⟨nestedRoots.relocate [[114], [97]] [[114], [99]], 0⟩
  [(⟨nestedRoots, 0⟩, .start), (after, .push ⟨⟨1⟩, .movedFrom, true, some 7, some [97]⟩),
    (after, .push ⟨⟨1⟩, .movedTo, true, some 7, some [99]⟩),
    (after, .push (.onWatch ⟨2⟩ .moveSelf))] ++ List.replicate 3 (after, .pump)

/-- The root whose entry moved along with the directory above it is left behind. -/
theorem live_roots_are_held_of_nested :
    let named : Roots := ⟨[some ⟨pathOf [[114]], 1⟩, some ⟨pathOf [[114], [97], [98]], 3⟩], 0⟩
    let first := ofRoots .empty named ⟨true, .rescan⟩
    ∃ transition ∈ transitions first renamedBetween,
      transition.Displaces (pathOf [[114], [97], [98]]) := by
  intro named first
  let outer := FileTree.empty.putDirectory [[114]]
  let middle := outer.putDirectory [[114], [97]]
  have houter : outer.WellFormed :=
    .putDirectory .empty (FileTree.get?_nil _) (by decide) (by decide)
  have hparent : outer.get? [[114]] = some (.directory 1) := by decide
  have hmiddle : middle.WellFormed := houter.putDirectory hparent (by decide) (by decide)
  have hparent : middle.get? [[114], [97]] = some (.directory 2) := by decide
  have hbefore : nestedRoots.WellFormed := hmiddle.putDirectory hparent (by decide) (by decide)
  have hparent : nestedRoots.get? [[114]] = some (.directory 1) := by decide
  have hafter : (nestedRoots.relocate [[114], [97]] [[114], [99]]).WellFormed :=
    hbefore.relocate (by decide) hparent (by decide) (by decide) (by decide)
  have hsucceed : ∀ transition ∈ transitions first renamedBetween, transition.Succeeds := by
    decide +kernel
  have hnames : ∀ transition ∈ transitions first renamedBetween,
      ∀ event ∈ transition.event?, ∀ name ∈ event.name, slash ∉ name := by
    decide +kernel
  have htrees : ∀ step ∈ renamedBetween, step.1.tree.WellFormed := by
    intro step hstep
    simp only [renamedBetween, List.replicate, List.cons_append, List.nil_append, List.mem_cons,
      List.not_mem_nil, or_false] at hstep
    rcases hstep with rfl | rfl | rfl | rfl | rfl | rfl | rfl <;> assumption
  have hrun : Run Transition.Proceeds first (transitions first renamedBetween)
      (outcome first renamedBetween) := run_transitions fun transition htransition =>
    ⟨hsucceed transition htransition, htrees _ (mem_steps_of_mem_transitions htransition),
      hnames transition htransition⟩
  have hnamed : Roots.ofPaths nestedRoots [pathOf [[114]], pathOf [[114], [97], [98]]] =
      .ok named := by
    decide +kernel
  refine ((live_roots_are_held hbefore hnamed hrun ⟨pathOf [[114], [97], [98]], 3⟩
    (by decide +kernel)).resolve_left ?_).2
  decide +kernel

/-- A root stays live for good without an entry at its path: no step fails, and no event is left. -/
theorem live_root_without_entry :
    let named : Roots := ⟨[some ⟨pathOf [[114]], 1⟩, some ⟨pathOf [[114], [97], [98]], 3⟩], 0⟩
    let first := ofRoots .empty named ⟨true, .rescan⟩
    let last := outcome first renamedBetween
    Roots.ofPaths nestedRoots [pathOf [[114]], pathOf [[114], [97], [98]]] = .ok named ∧
      (∀ transition ∈ transitions first renamedBetween, transition.Succeeds) ∧
      last.source.queue = [] ∧ last.roots.isRoot (pathOf [[114], [97], [98]]) = true ∧
      last.table.holdsPath (pathOf [[114], [97], [98]]) = false := by
  decide +kernel

end Runs

end Tracker

end TreeWatch
