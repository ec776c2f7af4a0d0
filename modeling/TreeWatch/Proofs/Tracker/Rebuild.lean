import TreeWatch.Proofs.Tracker.Tracking
import TreeWatch.Proofs.WatchTable.Duplicates

/-!
# Rebuilding

A table that is built from nothing says exactly what stands below the roots: one entry for each
directory that can be looked up there, under the path of its place and with a watch of its own. What
the tracker held before plays no part in it, and neither do walks that overlap because one root lies
below another.
-/

namespace TreeWatch

open FileTree

/-- The path of a root is that of a place, and no link has to be crossed on the way there. -/
def Root.AvoidsLinks (tree : FileTree) (root : Root) : Prop :=
  ∃ location, root.path = pathOf location ∧ IsPlace location ∧ tree.LinkFree location

namespace Tracker

open TreeWatch.Action

variable {tree : FileTree} {t u v : Tracker} {now : Nat}

section Cover

theorem isDirectory_root (hwf : tree.WellFormed) {root : Root} (hroot : root.AvoidsLinks tree)
    {location : Location} {directory : DirectoryId} (hshort : IsShort location)
    (hget : tree.get? location = some (.directory directory))
    (hbelow : (pathOf location).isBelow root.path = true) : tree.isDirectory root.path = true := by
  obtain ⟨place, hpath, hplace, hlinks⟩ := hroot
  rw [hpath, isBelow_pathOf_iff (hwf.isPlace hget) hplace] at hbelow
  obtain ⟨names, rfl⟩ := hbelow
  rw [hpath]
  exact (isDirectory_pathOf_iff hwf hplace hlinks).mpr ⟨hshort.left,
    hwf.exists_directory_above hget⟩

theorem ends_coverRoot (hwf : tree.WellFormed) {root : Root} (hroot : root.AvoidsLinks tree)
    (h : Aligned tree t) :
    (coverRoot root.path).Ends ⟨tree, now⟩ t
      (fun n u => Aside t u ∧
        Grown tree (fun location => (pathOf location).isBelow root.path = true) t u n ∧
        u.roots.live = if tree.isDirectory root.path then t.roots.live
          else t.roots.live.eraseP (·.path.same root.path))
      fun _ _ => Obstructed tree t := by
  have hroot' := hroot
  obtain ⟨location, hpath, hplace, hlinks⟩ := hroot
  have hbelow : ∀ place directory, IsShort place → tree.get? place = some (.directory directory) →
      (location <+: place ↔ (pathOf place).isBelow root.path = true) := fun place _ _ hget => by
    rw [hpath, isBelow_pathOf_iff (hwf.isPlace hget) hplace]
  have hdirectory := isDirectory_pathOf_iff hwf hplace hlinks
  rw [← hpath] at hdirectory
  rw [coverRoot, ends_bind, ends_tree]
  by_cases hdir : tree.isDirectory root.path = true
  · obtain ⟨hshort, directory, hget⟩ := hdirectory.mp hdir
    rw [if_pos hdir, ends_bind, ends_say, ends_bind, if_pos hdir, hpath]
    apply (ends_coverSubtree_grown hwf hplace hlinks (by simp [hget]) h).imp
    intro n u hu
    obtain ⟨hel, hgrown⟩ := hu
    obtain ⟨id, hid⟩ := hgrown.covered List.prefix_rfl hshort hget
    have hholds : u.table.holdsPath (pathOf location) = true :=
      WatchTable.holdsPath_iff.mpr ⟨_, hgrown.aligned.placed hid hget, by simp [Path.same]⟩
    rw [ends_bind, ends_state, if_neg (by simp [hholds]), ends_pure]
    exact ⟨hel.toAside, hgrown.congr (hpath ▸ hbelow), by rw [hel.roots]⟩
  · rw [if_neg hdir, ends_bind, ends_say, ends_bind, ends_retireRoot, ends_pure, if_neg hdir]
    refine ⟨⟨by simp, by simp, by simp⟩, ?_, live_withoutRoot⟩
    have hunder : Grown tree (fun location => (pathOf location).isBelow root.path = true) t
        t 0 := by
      apply Grown.refl h
      intro place directory hregion hshort hget
      exact absurd (isDirectory_root hwf hroot' hshort hget hregion) hdir
    exact hunder.of_same rfl rfl source_withoutRoot table_withoutRoot

theorem live_of_covered {root : Root} {kept rest : List Root}
    (hroots : ∀ other ∈ kept ++ root :: rest, other.AvoidsLinks tree)
    (hkept : ∀ other ∈ kept, tree.isDirectory other.path = true)
    (hlive : t.roots.live = kept ++ root :: rest)
    (hulive : u.roots.live = if tree.isDirectory root.path then t.roots.live
      else t.roots.live.eraseP (·.path.same root.path)) :
    u.roots.live = (kept ++ [root].filter fun root => tree.isDirectory root.path) ++ rest := by
  by_cases hdir : tree.isDirectory root.path = true
  · simp [hulive, hdir, hlive]
  · rw [hulive, if_neg hdir, hlive, List.eraseP_append_right,
      List.eraseP_cons_of_pos (by simp [Path.same])]
    · simp [hdir]
    · intro other hmem hsame
      obtain ⟨a, ha, haplace, -⟩ := hroots other (by simp [hmem])
      obtain ⟨b, hb, hbplace, -⟩ := hroots root (by simp)
      rw [ha, hb, same_pathOf_iff haplace hbplace] at hsame
      exact hdir (by rw [hb, ← hsame, ← ha]; exact hkept other hmem)

/-- Roots that are directories stay live, the others are retired, each in its turn. -/
theorem ends_coverRoots (hwf : tree.WellFormed) (roots kept : List Root)
    (hroots : ∀ root ∈ kept ++ roots, root.AvoidsLinks tree)
    (hkept : ∀ root ∈ kept, tree.isDirectory root.path = true)
    (hlive : t.roots.live = kept ++ roots) (h : Aligned tree t) :
    (coverRoots (roots.map (·.path))).Ends ⟨tree, now⟩ t
      (fun n u => Aside t u ∧
        Grown tree (fun location => ∃ root ∈ roots, (pathOf location).isBelow root.path =
          true) t u n ∧
        u.roots.live = kept ++ roots.filter fun root => tree.isDirectory root.path)
      fun _ _ => Obstructed tree t := by
  induction roots generalizing t kept with
  | nil =>
    refine ends_pure.mpr ⟨Aside.refl t, Grown.refl h fun hregion => ?_, by simpa using hlive⟩
    obtain ⟨root, hmem, -⟩ := hregion
    exact absurd hmem List.not_mem_nil
  | cons root rest ih =>
    rw [List.map_cons, coverRoots, ends_bind]
    apply (ends_coverRoot hwf (hroots root (by simp)) h).imp
    rintro m u ⟨hu, hgrown, hulive⟩
    have hulive := live_of_covered hroots hkept hlive hulive
    rw [ends_bind]
    refine (ih _ (fun other hmem => hroots other ?_) (fun other hmem =>
      ?_) hulive hgrown.aligned).mono (fun n v hv => ?_) fun _ _ => hgrown.obstructed
    · simp only [List.mem_append, List.mem_filter, List.mem_singleton] at hmem
      rcases hmem with (hmem | hmem) | hmem <;> simp [hmem]
    · rcases List.mem_append.mp hmem with hmem | hmem
      · exact hkept other hmem
      · exact (List.mem_filter.mp hmem).2
    · obtain ⟨hv, hgrown', hvlive⟩ := hv
      refine ⟨hu.trans hv, (hgrown.trans hgrown').congr fun location _ _ _ => by simp,
        hvlive.trans ?_⟩
      rw [List.append_assoc, ← List.filter_append, List.singleton_append]

theorem ends_cover (hwf : tree.WellFormed) (hroots : ∀ root ∈ t.roots.live, root.AvoidsLinks tree)
    (h : Aligned tree t) :
    cover.Ends ⟨tree, now⟩ t
      (fun n u => Aside t u ∧
        Grown tree (fun location => t.roots.Reach (pathOf location)) t u n ∧
        u.roots.live = t.roots.live.filter fun root => tree.isDirectory root.path)
      fun _ _ => Obstructed tree t := by
  rw [cover, ends_bind, ends_state]
  exact ends_coverRoots hwf t.roots.live [] (by simpa using hroots) (by simp) rfl h

end Cover

section Exactness

/-- What a tracker `u` is after its table was built anew, with `n` entries, while `t` was before. -/
structure Rebuilt (tree : FileTree) (t : Tracker) (n : Nat) (u : Tracker) : Prop where
  /-- The roots that are still directories are live, in their old order. -/
  roots : u.roots.live = t.roots.live.filter fun root => tree.isDirectory root.path
  exact : Exact tree u
  sound : u.source.Sound
  /-- No number of a watch was given out before. -/
  fresh : ∀ entry ∈ u.table.entries, (t.source.nextId : Int) ≤ entry.id.raw
  size : u.table.size = n
  watchCount : u.source.live.length = n
  queue : u.source.queue = []
  departures : u.departures = .empty
  draining : u.draining = []
  audit : Audit.run tree u.table = ⟨n, 0, [], []⟩

/-- A tracker that holds nothing but its roots. -/
structure Bare (t : Tracker) : Prop where
  live : t.source.live = []
  queue : t.source.queue = []
  entries : t.table.entries = []
  departures : t.departures = .empty
  draining : t.draining = []

theorem Bare.tracks (h : t.Bare) : Tracks tree (fun _ => False) t where
  sound := ⟨by simp [h.live], by simp [h.live], by simp [h.live]⟩
  ids := by simp [h.entries]
  entry := by simp [h.entries]
  covered := by simp
  watch := by simp [h.live]

/-- An audit of a table that says what stands finds nothing wrong. -/
theorem Tracks.audit {held : Location → Prop} (hwf : tree.WellFormed) (h : Tracks tree held t) :
    Audit.run tree t.table = ⟨t.table.entries.length, 0, [], []⟩ := by
  have hfind : ∀ entry ∈ t.table.entries, Audit.find tree entry.path = .directory := by
    rintro ⟨id, path⟩ hentry
    obtain ⟨location, directory, hpath, hshort, hget, -⟩ := h.entry hentry
    rw [Audit.find, hpath, (inspect_pathOf_eq_ok_iff hwf (hwf.isPlace hget) (hwf.linkFree hget)).mpr
      ⟨hshort, hget⟩]
    rfl
  have hmissing : (t.table.entries.filter fun entry =>
      (Audit.find tree entry.path).isNothing) = [] :=
    List.filter_eq_nil_iff.mpr fun entry hentry => by
      simp [hfind entry hentry, Audit.Finding.isNothing]
  have hother : (t.table.entries.filter fun entry =>
      Audit.find tree entry.path = .otherObject) = [] :=
    List.filter_eq_nil_iff.mpr fun entry hentry => by simp [hfind entry hentry]
  have hshared := WatchTable.sharedPaths_eq_nil_iff.mpr ((h.distinct hwf).imp And.right)
  rw [Audit.run, WatchTable.map_active]
  simp only [hmissing, hother, hshared, List.length_nil]

/-- A table that grew from nothing under the roots is what a rebuild leaves. -/
theorem Bare.rebuilt (hwf : tree.WellFormed) (h : t.Bare)
    (hroots : ∀ root ∈ t.roots.live, root.AvoidsLinks tree) {n : Nat} (haside : Aside t u)
    (hgrown : Grown tree (fun location => t.roots.Reach (pathOf location)) t u n)
    (hlive : u.roots.live = t.roots.live.filter fun root => tree.isDirectory root.path) :
    Rebuilt tree t n u := by
  have hreach : ∀ location directory, IsShort location →
      tree.get? location = some (.directory directory) →
      (t.roots.Reach (pathOf location) ↔ u.roots.Reach (pathOf location)) := by
    intro location directory hshort hget
    rw [Roots.Reach, Roots.Reach, hlive]
    constructor
    · rintro ⟨root, hroot, hbelow⟩
      exact ⟨root, List.mem_filter.mpr
        ⟨hroot, isDirectory_root hwf (hroots root hroot) hshort hget hbelow⟩, hbelow⟩
    · rintro ⟨root, hroot, hbelow⟩
      exact ⟨root, (List.mem_filter.mp hroot).1, hbelow⟩
  have htracks : Tracks tree (fun location => u.roots.Reach (pathOf location)) u :=
    (h.tracks.grown hgrown).congr fun location directory hshort hget => by
      rw [← hreach location directory hshort hget, false_or]
  have hsize : u.table.entries.length = n := by
    rw [hgrown.size, h.entries, List.length_nil, Nat.zero_add]
  exact
    { roots := hlive
      exact := htracks.exact hwf
      sound := hgrown.aligned.sound
      fresh := fun entry hentry => by
        obtain ⟨_, _, _, _, _, _, _, hid⟩ :=
          (hgrown.newEntry entry hentry).resolve_left (by simp [h.entries])
        exact hid
      size := u.table.size_eq.trans hsize
      watchCount := (htracks.length_live hwf).trans hsize
      queue := hgrown.queue.trans h.queue
      departures := haside.departures.trans h.departures
      draining := haside.draining.trans h.draining
      audit := hsize ▸ htracks.audit hwf }

theorem Bare.ends_cover (hwf : tree.WellFormed) (h : t.Bare)
    (hroots : ∀ root ∈ t.roots.live, root.AvoidsLinks tree) :
    cover.Ends ⟨tree, now⟩ t (Rebuilt tree t) fun _ _ => Obstructed tree t :=
  (Tracker.ends_cover hwf hroots (h.tracks.aligned hwf)).imp
    fun _ _ hu => h.rebuilt hwf hroots hu.1 hu.2.1 hu.2.2

theorem Rebuilt.holdsPath (hwf : tree.WellFormed)
    (hroots : ∀ root ∈ t.roots.live, root.AvoidsLinks tree) {n : Nat} (h : Rebuilt tree t n u)
    {root : Root} (hroot : root ∈ u.roots.live) :
    u.table.holdsPath root.path = true := by
  have hmem := hroot
  rw [h.roots, List.mem_filter] at hmem
  obtain ⟨location, hpath, hplace, hlinks⟩ := hroots root hmem.1
  rw [hpath, isDirectory_pathOf_iff hwf hplace hlinks] at hmem
  obtain ⟨hshort, directory, hget⟩ := hmem.2
  have hreach : u.roots.Reach (pathOf location) := hpath ▸ Roots.reach_of_mem hroot
  obtain ⟨entry, hentry, heq⟩ :=
    (h.exact.covers (pathOf location)).mpr ⟨location, directory, rfl, hshort, hget, hreach⟩
  exact WatchTable.holdsPath_iff.mpr ⟨entry, hentry, by rw [heq, hpath, Path.same_refl]⟩

theorem Rebuilt.of_same {n : Nat} (h : Rebuilt tree t n u) (hroots : t.roots.live = v.roots.live)
    (hnextId : t.source.nextId = v.source.nextId) : Rebuilt tree v n u :=
  { h with
    roots := hroots ▸ h.roots
    fresh := hnextId ▸ h.fresh }

theorem ends_rebuild_rebuilt (hwf : tree.WellFormed)
    (hroots : ∀ root ∈ t.roots.live, root.AvoidsLinks tree) :
    rebuild.Ends ⟨tree, now⟩ t (Rebuilt tree t) fun _ _ => True := by
  rw [ends_rebuild]
  split
  · trivial
  · have hbare : t.wiped.Bare := ⟨rfl, rfl, entries_wiped _, rfl, rfl⟩
    exact (hbare.ends_cover hwf hroots).mono (fun _ _ hu => hu.of_same rfl rfl) fun _ _ _ => trivial

theorem ends_resolveDistrust_rebuilt (hwf : tree.WellFormed)
    (hroots : ∀ root ∈ t.roots.live, root.AvoidsLinks tree)
    (hpolicy : t.policy.abortsOnProblem = false) (why : Distrust) :
    (resolveDistrust why).Ends ⟨tree, now⟩ t (fun _ u => ∃ n, Rebuilt tree t n u)
      fun _ _ => True := by
  rw [ends_resolveDistrust, if_neg (by simp [hpolicy])]
  exact (ends_rebuild_rebuilt hwf hroots).mono (fun n _ hu => ⟨n, hu⟩) fun _ _ _ => trivial

theorem ends_onCommand_rebuilt {session : Session} (hwf : tree.WellFormed)
    (hroots : ∀ root ∈ session.tracker.roots.live, root.AvoidsLinks tree) :
    (Session.onCommand .rebuild).Ends ⟨tree, now⟩ session
      (fun _ after => ∃ n, Rebuilt tree session.tracker n after.tracker) fun _ _ => True := by
  simp only [Session.onCommand, Session.onTracker, Session.stopIfExhausted, ends_bind, ends_onPart,
    ends_state, ends_pure]
  exact (ends_rebuild_rebuilt hwf hroots).mono (fun n _ hu => ⟨n, hu⟩) fun _ _ _ => trivial

theorem ends_handle_overflow_rebuilt {event : Event} (hwf : tree.WellFormed)
    (hroots : ∀ root ∈ t.roots.live, root.AvoidsLinks tree) (hkind : event.kind = .overflow)
    (hpolicy : t.policy.overflow = .rescan) :
    (handle event).Ends ⟨tree, now⟩ t (fun _ u => ∃ n, Rebuilt tree (t.received event) n u)
      fun _ _ => True := by
  have hreceived := live_received_sublist t event
  rw [ends_handle, if_neg (by simp [isStale, hkind]), applyEvent, hkind]
  apply ends_onOverflow.mpr
  rw [policy_received, hpolicy]
  have hroots' : ∀ root ∈ (t.received event).overran.roots.live, root.AvoidsLinks tree :=
    fun root hroot => hroots root (hreceived.subset hroot)
  exact (ends_rebuild_rebuilt hwf hroots').mono (fun n _ hu => ⟨n, hu.of_same rfl rfl⟩)
    fun _ _ _ => trivial

theorem Bare.ends_start_rebuilt (hwf : tree.WellFormed) (h : t.Bare)
    (hroots : ∀ root ∈ t.roots.live, root.AvoidsLinks tree) :
    start.Ends ⟨tree, now⟩ t (fun _ u => ∃ n, Rebuilt tree t n u) fun _ _ => True := by
  simp only [start, ends_bind, ends_state, ends_say, ends_pure]
  exact (h.ends_cover hwf hroots).mono (fun n _ hu => ⟨n, hu⟩) fun _ _ _ => trivial

/-- Whatever a tracker holds, a rebuild that succeeds leaves exactly what stands below the roots:
one asked for by command, one after an overflow, one after an audit or a look-up found the table
wrong, and the first one at the start. -/
theorem rebuild_is_exact (hwf : tree.WellFormed) (t : Tracker)
    (hroots : ∀ root ∈ t.roots.live, root.AvoidsLinks tree) (now : Nat) :
    (∀ n, (rebuild ⟨tree, now⟩ t).result = .ok n → Rebuilt tree t n (rebuild ⟨tree, now⟩ t).state) ∧
    (∀ (session : Session) (outcome : Option Outcome), session.tracker = t →
      (Session.onCommand .rebuild ⟨tree, now⟩ session).result = .ok outcome →
      ∃ n, Rebuilt tree t n (Session.onCommand .rebuild ⟨tree, now⟩ session).state.tracker) ∧
    (∀ event flow, event.kind = .overflow → t.policy.overflow = .rescan →
      (handle event ⟨tree, now⟩ t).result = .ok flow →
      ∃ n, Rebuilt tree (t.received event) n (handle event ⟨tree, now⟩ t).state) ∧
    (∀ report, t.policy.abortsOnProblem = false → (Audit.run tree t.table).distrust? ≠ none →
      (check ⟨tree, now⟩ t).result = .ok report →
      ∃ n, Rebuilt tree t n (check ⟨tree, now⟩ t).state) ∧
    (∀ id slot, t.policy.abortsOnProblem = false → t.table.slotOf? id = none →
      (requireSlot id ⟨tree, now⟩ t).result = .ok slot →
      ∃ n, Rebuilt tree t n (requireSlot id ⟨tree, now⟩ t).state) ∧
    (∀ flow, t.Bare → (start ⟨tree, now⟩ t).result = .ok flow →
      ∃ n, Rebuilt tree t n (start ⟨tree, now⟩ t).state) := by
  refine ⟨fun n => (ends_rebuild_rebuilt hwf hroots).of_ok, ?_, ?_, ?_, ?_, ?_⟩
  · rintro session outcome rfl
    exact (ends_onCommand_rebuilt hwf hroots).of_ok
  · intro event flow hkind hpolicy
    exact (ends_handle_overflow_rebuilt hwf hroots hkind hpolicy).of_ok
  · intro report hpolicy hdistrust
    obtain ⟨why, hwhy⟩ := Option.ne_none_iff_exists'.mp hdistrust
    have hcheck : check.Ends ⟨tree, now⟩ t (fun _ u => ∃ n, Rebuilt tree t n u)
      fun _ _ => True := by
      rw [ends_check, hwhy]
      exact ends_resolveDistrust_rebuilt hwf hroots hpolicy why
    exact hcheck.of_ok
  · intro id slot hpolicy hslot
    have hrequire : (requireSlot id).Ends ⟨tree, now⟩ t
        (fun _ u => ∃ n, Rebuilt tree t n u) fun _ _ => True := by
      rw [ends_requireSlot, hslot]
      exact ends_resolveDistrust_rebuilt hwf hroots hpolicy _
    exact hrequire.of_ok
  · intro flow hbare
    exact (hbare.ends_start_rebuilt hwf hroots).of_ok

/-- Two nested roots, and a tracker in which nothing is right any more. -/
theorem rebuild_is_exact_of_stale :
    let tree := (FileTree.empty.putDirectory [[114]]).putDirectory [[114], [97]]
    let roots : Roots := ⟨[some ⟨pathOf [[114]], 1⟩, some ⟨pathOf [[114], [97]], 2⟩], 0⟩
    let stale : Tracker :=
      { ofRoots { Source.empty with live := [(⟨7⟩, 1)], nextId := 9 } roots ⟨true, .rescan⟩ with
        table := ⟨[some ⟨⟨3⟩, pathOf [[98]]⟩, none, some ⟨⟨7⟩, pathOf [[98]]⟩], 3, 1, by decide⟩
        draining := [⟨3⟩] }
    (rebuild ⟨tree, 0⟩ stale).result = .ok 2 ∧
        Rebuilt tree stale 2 (rebuild ⟨tree, 0⟩ stale).state := by
  intro tree roots stale
  have hfirst : (FileTree.empty.putDirectory [[114]]).WellFormed :=
    WellFormed.empty.putDirectory (FileTree.get?_nil _) (by decide) (by decide)
  have hparent : (FileTree.empty.putDirectory [[114]]).get? [[114]] = some (.directory 1) := by
    decide
  have hwf : tree.WellFormed := hfirst.putDirectory hparent (by decide) (by decide)
  have houter : tree.get? [[114]] = some (.directory 1) := by decide
  have hinner : tree.get? [[114], [97]] = some (.directory 2) := by decide
  have hresult : (rebuild ⟨tree, 0⟩ stale).result = .ok 2 := by decide +kernel
  refine ⟨hresult, (rebuild_is_exact hwf stale (fun root hroot => ?_) 0).1 2 hresult⟩
  simp only [stale, ofRoots, roots, Roots.live, List.filterMap_cons, id_eq, List.filterMap_nil,
    List.mem_cons, List.not_mem_nil, or_false] at hroot
  rcases hroot with rfl | rfl
  · exact ⟨[[114]], rfl, hwf.isPlace houter, hwf.linkFree houter⟩
  · exact ⟨[[114], [97]], rfl, hwf.isPlace hinner, hwf.linkFree hinner⟩

end Exactness

end Tracker

end TreeWatch
