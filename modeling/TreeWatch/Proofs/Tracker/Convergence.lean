import TreeWatch.Proofs.Tracker.Anchors

/-!
# Convergence

Directories are made and removed anywhere in the tree, and events are taken in whenever it suits.
Nothing that comes too late makes taking in an event fail, and once no event waits the table has
every directory below the live roots. It may have more: a directory that was caught below a root
that is gone stays in it for as long as it stands.
-/

namespace TreeWatch

open FileTree

theorem Roots.Named.standIn {tree : FileTree} {roots : Roots} (h : roots.Named tree) :
    roots.StandIn tree := by
  intro root hroot
  obtain ⟨location, hpath, hget⟩ := h root hroot
  exact ⟨location, root.directory, hpath, hget⟩

namespace Tracker

open TreeWatch.Action

variable {tree : FileTree} {t : Tracker} {named : Roots} {lost : List DirectoryId}
  {caught : DirectoryId → Prop} {notices : List Notice} {location : Location}
  {directory : DirectoryId} {id : WatchId}

/-- The tree and the tracker after directories were made and removed and events were taken in, in
any order, since the start with the roots `named`; and the directories that were removed and those
that were caught meanwhile. -/
inductive Unfolds (named : Roots) :
    FileTree → Tracker → List DirectoryId → (DirectoryId → Prop) → Prop
  | start {tree : FileTree} {t : Tracker} {paths : List Path} {now : Nat} {flow : Flow}
      (hwf : tree.WellFormed)
      (hshort : ∀ location directory, tree.get? location = some (.directory directory) →
        IsShort location)
      (hnamed : Roots.ofPaths tree paths = .ok named) (hbare : t.Bare) (hroots : t.roots = named)
      (hrefused : t.source.refused = []) (hok : (start ⟨tree, now⟩ t).result = .ok flow) :
      Unfolds named tree (start ⟨tree, now⟩ t).state [] fun _ => False
  | make {tree : FileTree} {t : Tracker} {lost : List DirectoryId} {caught : DirectoryId → Prop}
      {parent : Location} {name : Bytes} {holder : DirectoryId}
      (h : Unfolds named tree t lost caught) (hparent : tree.get? parent = some (.directory holder))
      (hname : IsName name) (hfree : tree.get? (parent ++ [name]) = none)
      (hshort : IsShort (parent ++ [name])) :
      Unfolds named (tree.putDirectory (parent ++ [name])) (t.queued
        (reported t.source tree parent fun id => ⟨id, .create, true, none, some name⟩)) lost caught
  | remove {tree : FileTree} {t : Tracker} {lost : List DirectoryId} {caught : DirectoryId → Prop}
      {location : Location} {directory : DirectoryId} (h : Unfolds named tree t lost caught)
      (hne : location ≠ []) (hget : tree.get? location = some (.directory directory))
      (hempty : ∀ name, tree.get? (location ++ [name]) = none) :
      Unfolds named (tree.erase location) (t.queued
        (reported t.source tree location (.onWatch · .deleteSelf) ++
          reported t.source tree location (.onWatch · .ignored))) (directory :: lost) caught
  | pump {tree : FileTree} {t : Tracker} {lost : List DirectoryId} {caught : DirectoryId → Prop}
      {flow : Option Flow} (now : Nat) (h : Unfolds named tree t lost caught)
      (hok : (pump ⟨tree, now⟩ t).result = .ok flow) :
      Unfolds named tree (pump ⟨tree, now⟩ t).state lost
        fun directory => caught directory ∨ Catches tree t directory

section Start

variable {now : Nat}

theorem Bare.ends_start (hwf : tree.WellFormed) (h : t.Bare)
    (hroots : ∀ root ∈ t.roots.live, root.AvoidsLinks tree) :
    start.Ends ⟨tree, now⟩ t
      (fun _ u => Mirrors tree u ∧ u.source.refused = t.source.refused ∧
        u.roots.live = t.roots.live.filter fun root => tree.isDirectory root.path)
      fun _ _ => Obstructed tree t := by
  simp only [start, ends_bind, ends_state, ends_say, ends_pure]
  apply (Tracker.ends_cover hwf hroots (h.tracks.aligned hwf)).imp
  intro n u hu
  obtain ⟨haside, hgrown, hlive⟩ := hu
  exact ⟨(h.rebuilt hwf hroots haside hgrown hlive).mirrors hwf hroots, hgrown.refused, hlive⟩

theorem Mirrors.backlog (h : Mirrors tree t) (hwf : tree.WellFormed)
    (hrefused : t.source.refused = [])
    (hshort : ∀ location directory, tree.get? location = some (.directory directory) →
      IsShort location) :
    Backlog tree t [] where
  sound := h.sound
  refused := hrefused
  departures := h.departures
  draining := by simp [h.draining]
  queue := by simp [h.draining, h.queue]
  short := hshort _ _
  ids := h.tracks.ids
  known := (h.tracks.aligned hwf).known
  entry hentry := by
    obtain ⟨location, directory, hpath, -, hget, -, hlive⟩ := h.tracks.entry hentry
    exact ⟨by simp [h.draining], ⟨directory, hlive⟩, location, hpath, hwf.isPlace hget,
      hwf.clear hget⟩
  standing hlive hget := ⟨(h.tracks.aligned hwf).placed hlive hget, List.not_mem_nil⟩
  gone hlive hnone := by
    obtain ⟨location, -, hget⟩ := h.tracks.watch hlive
    exact absurd hget (hnone location)
  removed hmem := absurd hmem List.not_mem_nil
  made hmem := absurd hmem List.not_mem_nil
  last := .nil
  covered {id directory location name child} hlive hget hchild := by
    obtain ⟨place, hentry, hplace⟩ := h.tracks.watch hlive
    obtain rfl := hwf.unique hget hplace
    obtain ⟨_, _, -, hreach⟩ := (h.tracks.held_iff hwf (hwf.isPlace hget)).mp ⟨id, hentry⟩
    have hbelow := reach_below h.roots hwf (hwf.isPlace hchild) hreach (hwf.isPlace hget)
      (List.prefix_append _ _)
    obtain ⟨other, hother⟩ := h.tracks.covered hbelow (hshort _ _ hchild) hchild
    exact .inl ⟨other, (h.tracks.watches_iff hwf).mpr ⟨_, hother, hchild⟩⟩
  successive {id other path} hfirst hsecond hlt := by
    obtain ⟨place, directory, hpath, -, hget, -, hlive⟩ := h.tracks.entry hfirst
    obtain ⟨place', directory', -, -, hget', -, hlive'⟩ := h.tracks.entry hsecond
    have heq := (h.tracks.aligned hwf).eq_of_path hwf hfirst hsecond hlive hget hlive' hget'
    exact absurd hlt (heq ▸ Int.lt_irrefl _)

theorem Mirrors.exists_watch (h : Mirrors tree t) (hwf : tree.WellFormed)
    (hnamed : t.roots.Named tree) (hshort : ∀ location directory,
      tree.get? location = some (.directory directory) → IsShort location)
    {root : Root} (hroot : root ∈ t.roots.live) : ∃ id location, root.path = pathOf location ∧
      tree.get? location = some (.directory root.directory) ∧
      (id, root.directory) ∈ t.source.live ∧ ⟨id, pathOf location⟩ ∈ t.table.entries := by
  obtain ⟨location, hpath, hget⟩ := hnamed root hroot
  have hplace := hwf.isPlace hget
  have hreach : t.roots.Reach (pathOf location) := hpath ▸ Roots.reach_of_mem hroot
  obtain ⟨id, hentry⟩ := h.tracks.covered hreach (hshort _ _ hget) hget
  exact ⟨id, location, hpath, hget, (h.tracks.watches_iff hwf).mpr ⟨_, hentry, hget⟩, hentry⟩

theorem Mirrors.rooted (h : Mirrors tree t) (hwf : tree.WellFormed) (hnamed : t.roots.Named tree)
    (hshort : ∀ location directory, tree.get? location = some (.directory directory) →
      IsShort location)
    (hdistinct : (t.roots.live.map (·.directory)).Nodup) (hlive : t.roots.live = named.live) :
    Rooted tree named [] t where
  sub := hlive ▸ List.Subset.refl _
  distinct := hdistinct
  known root hroot := by
    obtain ⟨location, -, hget⟩ := hnamed root (hlive ▸ hroot)
    exact hwf.known hget
  gone directory hlost := absurd hlost List.not_mem_nil
  stands root hroot _ := hnamed root (hlive ▸ hroot)
  kept root hroot _ _ := hlive ▸ hroot
  entered root hroot := by
    obtain ⟨id, location, hpath, hget, hwatch, hentry⟩ := h.exists_watch hwf hnamed hshort hroot
    refine ⟨id, location, hpath, hwf.isPlace hget, hwatch, hentry, ?_⟩
    intro other hother
    obtain ⟨place, directory, -, -, hget', -, hwatch'⟩ := h.tracks.entry hother
    exact Int.le_of_eq (congrArg WatchId.raw
      ((h.tracks.aligned hwf).eq_of_path hwf hentry hother hwatch hget hwatch' hget'))

theorem Mirrors.anchored (h : Mirrors tree t) (hwf : tree.WellFormed)
    (hnamed : t.roots.Named tree) :
    Anchored tree (fun _ => False) t where
  known _ hcaught := hcaught.elim
  watched hcaught _ := hcaught.elim
  anchor {id directory location} hwatch hget := by
    have hplace := hwf.isPlace hget
    obtain ⟨place, hentry, hplaceGet⟩ := h.tracks.watch hwatch
    obtain rfl := hwf.unique hget hplaceGet
    obtain ⟨_, _, -, hreach⟩ := (h.tracks.held_iff hwf hplace).mp ⟨id, hentry⟩
    obtain ⟨root, hroot, hbelow⟩ := hreach
    obtain ⟨top, hpath, htop⟩ := hnamed root hroot
    rw [hpath, isBelow_pathOf_iff hplace (hwf.isPlace htop)] at hbelow
    exact ⟨root.directory, top, .inl ⟨root, hroot, rfl⟩, htop, hbelow⟩

end Start

section Runs

/-- However a run unfolds, what waits makes up for what is missing. -/
theorem Unfolds.backlog (h : Unfolds named tree t lost caught) : tree.WellFormed ∧
    ∃ notices, Backlog tree t notices ∧ Rooted tree named lost t ∧ Anchored tree caught t := by
  induction h with
  | @start tree t paths now flow hwf hshort hnamed hbare hroots hrefused hok =>
    obtain ⟨hstand, hdistinct⟩ := Roots.ofPaths_eq_ok hnamed
    rw [← hroots] at hstand hdistinct
    have hlinks : ∀ root ∈ t.roots.live, root.AvoidsLinks tree := by
      intro root hroot
      obtain ⟨location, hpath, hget⟩ := hstand root hroot
      exact ⟨location, hpath, hwf.isPlace hget, hwf.linkFree hget⟩
    obtain ⟨hmirror, hkept, hlive⟩ := (hbare.ends_start hwf hlinks).of_ok hok
    rw [List.filter_eq_self.mpr] at hlive
    · have hnamed' : (Tracker.start ⟨tree, now⟩ t).state.roots.Named tree := by
        rw [Roots.Named, hlive]
        exact hstand
      refine ⟨hwf, [], hmirror.backlog hwf (hkept.trans hrefused) hshort, ?_,
        hmirror.anchored hwf hnamed'⟩
      exact hmirror.rooted hwf hnamed' hshort (hlive ▸ hdistinct) (hroots ▸ hlive)
    · intro root hroot
      obtain ⟨location, hpath, hget⟩ := hstand root hroot
      rw [hpath]
      exact (isDirectory_pathOf_iff hwf (hwf.isPlace hget) (hwf.linkFree hget)).mpr
        ⟨hshort _ _ hget, _, hget⟩
  | make _ hparent hname hfree hshort ih =>
    obtain ⟨hwf, notices, hbacklog, hrooted, hanchored⟩ := ih
    obtain ⟨more, hmade⟩ := hbacklog.make hwf hparent hname hfree hshort
    exact ⟨hwf.putDirectory hparent hname hfree, notices ++ more, hmade, hrooted.make hfree _,
      hanchored.make hbacklog hfree _⟩
  | remove _ hne hget hempty ih =>
    obtain ⟨hwf, notices, hbacklog, hrooted, hanchored⟩ := ih
    obtain ⟨more, hremoved⟩ := hbacklog.remove hwf hne hget hempty
    exact ⟨hwf.erase hne, notices ++ more, hremoved, hrooted.remove hwf hne hget hempty _,
      hanchored.remove hwf hne hempty _⟩
  | pump now _ hok ih =>
    obtain ⟨hwf, notices, hbacklog, hrooted, hanchored⟩ := ih
    obtain ⟨rest, htakes⟩ := (hbacklog.ends_pump hwf).of_ok hok
    exact ⟨hwf, rest, hbacklog.takes hwf htakes, hrooted.takes hbacklog htakes,
      hanchored.takes hbacklog hwf hrooted htakes⟩

end Runs

section Rest

theorem Backlog.eq_nil (h : Backlog tree t notices) (hqueue : t.source.queue = []) :
    t.draining = [] ∧ notices = [] := by
  have hnil := h.queue
  rw [hqueue, eq_comm, List.append_eq_nil_iff, List.map_eq_nil_iff, List.flatMap_eq_nil_iff] at hnil
  refine ⟨hnil.1, List.eq_nil_iff_forall_not_mem.mpr fun notice hmem => ?_⟩
  have hevents := hnil.2 notice hmem
  cases notice <;> simp [Notice.events] at hevents

/-- Where nothing waits, every entry stands for a directory of the tree. -/
theorem Backlog.tracks (h : Backlog tree t []) (hdraining : t.draining = []) :
    Tracks tree (fun location => ∃ id, ⟨id, pathOf location⟩ ∈ t.table.entries) t := by
  have hstands {id : WatchId} {directory : DirectoryId} (hlive : (id, directory) ∈ t.source.live) :
      ∃ location, tree.get? location = some (.directory directory) := by
    by_contra hnone
    rcases h.gone hlive fun location hget => hnone ⟨location, hget⟩ with hmem | hmem
    · rw [hdraining] at hmem
      exact List.not_mem_nil hmem
    · exact List.not_mem_nil hmem
  exact
    { sound := h.sound
      ids := h.ids
      entry := fun {id path} hentry => by
        obtain ⟨-, ⟨directory, hlive⟩, -⟩ := h.entry hentry
        obtain ⟨location, hget⟩ := hstands hlive
        have hplaced := (h.standing hlive hget).1
        have hpath := WatchTable.eq_of_mem_entries h.ids hentry hplaced
        exact ⟨location, directory, hpath, h.short hget, hget, ⟨id, hplaced⟩, hlive⟩
      covered := fun hheld _ _ => hheld
      watch := fun hlive => by
        obtain ⟨location, hget⟩ := hstands hlive
        exact ⟨location, (h.standing hlive hget).1, hget⟩ }

theorem Backlog.watched_below (h : Backlog tree t []) (hwf : tree.WellFormed) {top : DirectoryId}
    (hlive : (id, top) ∈ t.source.live) (hget : tree.get? location = some (.directory top))
    (more : Location) (hbelow : tree.get? (location ++ more) = some (.directory directory)) :
    ∃ other, (other, directory) ∈ t.source.live := by
  induction more using List.reverseRecOn generalizing directory with
  | nil =>
    rw [List.append_nil] at hbelow
    obtain rfl := eq_of_get?_directory hget hbelow
    exact ⟨id, hlive⟩
  | append_singleton more name ih =>
    rw [← List.append_assoc] at hbelow
    obtain ⟨holder, hholder⟩ := hwf.prefix_isDirectory (List.cons_ne_nil name []) hbelow
    obtain ⟨other, hother⟩ := ih hholder
    exact (h.covered hother hholder hbelow).resolve_right List.not_mem_nil

/-- What a tracker comes to at rest: no watch is on its way out, the live roots are the named ones
whose directory was not removed, all that stands below them has an entry, and every entry stands for
a directory of the tree, under its path and with its watch. -/
structure Converged (tree : FileTree) (named : Roots) (lost : List DirectoryId) (t : Tracker) :
    Prop where
  draining : t.draining = []
  roots : ∀ root, root ∈ t.roots.live ↔ root ∈ named.live ∧ root.directory ∉ lost
  covers : ∀ location directory, tree.get? location = some (.directory directory) →
    t.roots.Reach (pathOf location) → ∃ entry ∈ t.table.entries, entry.path = pathOf location
  stands : ∀ entry ∈ t.table.entries, ∃ location directory, entry.path = pathOf location ∧
    tree.get? location = some (.directory directory)
  distinct : t.table.entries.Pairwise fun a b => a.id ≠ b.id ∧ a.path.same b.path = false
  watches : ∀ id directory, (id, directory) ∈ t.source.live ↔ ∃ location,
    ⟨id, pathOf location⟩ ∈ t.table.entries ∧ tree.get? location = some (.directory directory)

theorem Rooted.stand (h : Rooted tree named lost t) (hwf : tree.WellFormed)
    (hbacklog : Backlog tree t []) (hdraining : t.draining = []) : t.roots.Named tree := by
  intro root hroot
  obtain ⟨id, location, hpath, hplace, hlive, hentry, -⟩ := h.entered root hroot
  have htracks := hbacklog.tracks hdraining
  obtain ⟨place, hplaced, hget⟩ := htracks.watch hlive
  have hsame := WatchTable.eq_of_mem_entries hbacklog.ids hentry hplaced
  obtain rfl := (pathOf_inj hplace (hwf.isPlace hget)).mp hsame
  exact ⟨location, hpath, hget⟩

theorem Rooted.covers (h : Rooted tree named lost t) (hwf : tree.WellFormed)
    (hbacklog : Backlog tree t []) (hdraining : t.draining = [])
    (hget : tree.get? location = some (.directory directory))
    (hreach : t.roots.Reach (pathOf location)) : ∃ id, ⟨id, pathOf location⟩ ∈ t.table.entries := by
  have hnamed := h.stand hwf hbacklog hdraining
  obtain ⟨root, hroot, hbelow⟩ := hreach
  obtain ⟨place, hpath, hplace⟩ := hnamed root hroot
  rw [hpath, isBelow_pathOf_iff (hwf.isPlace hget) (hwf.isPlace hplace)] at hbelow
  obtain ⟨more, rfl⟩ := hbelow
  obtain ⟨id, _, -, -, hlive, -, -⟩ := h.entered root hroot
  obtain ⟨other, hother⟩ := hbacklog.watched_below hwf hlive hplace more hget
  exact ⟨other, (hbacklog.standing hother hget).1⟩

theorem Rooted.converged (h : Rooted tree named lost t) (hwf : tree.WellFormed)
    (hbacklog : Backlog tree t []) (hdraining : t.draining = []) : Converged tree named lost t := by
  have htracks := hbacklog.tracks hdraining
  refine ⟨hdraining, ?_, ?_, ?_, htracks.distinct hwf, fun _ _ => htracks.watches_iff hwf⟩
  · intro root
    constructor
    · intro hroot
      refine ⟨h.sub hroot, ?_⟩
      intro hlost
      obtain ⟨location, -, hget⟩ := h.stand hwf hbacklog hdraining root hroot
      exact (h.gone _ hlost).2 location hget
    · rintro ⟨hroot, hnot⟩
      obtain ⟨location, -, hget⟩ := h.stands root hroot hnot
      exact h.kept root hroot location hget
  · intro location directory hget hreach
    obtain ⟨id, hentry⟩ := h.covers hwf hbacklog hdraining hget hreach
    exact ⟨_, hentry, rfl⟩
  · rintro ⟨id, path⟩ hentry
    obtain ⟨location, directory, hpath, -, hget, -⟩ := htracks.entry hentry
    exact ⟨location, directory, hpath, hget⟩

/-- At rest the table is exact if and only if whatever was caught and still stands is reached. -/
theorem Anchored.exact_iff (h : Anchored tree caught t) (hwf : tree.WellFormed)
    (hrooted : Rooted tree named lost t) (hbacklog : Backlog tree t [])
    (hdraining : t.draining = []) :
    Exact tree t ↔ ∀ directory location, caught directory →
      tree.get? location = some (.directory directory) → t.roots.Reach (pathOf location) := by
  have htracks := hbacklog.tracks hdraining
  have hnamed := hrooted.stand hwf hbacklog hdraining
  constructor
  · intro hexact directory location hcaught hget
    obtain ⟨id, hlive⟩ := h.watched hcaught hget
    obtain ⟨place, other, hpath, -, hplace, hreach⟩ :=
      (hexact.covers (pathOf location)).mp ⟨_, (hbacklog.standing hlive hget).1, rfl⟩
    exact hreach
  · intro hcaught
    apply Tracks.exact hwf
    apply htracks.congr
    intro location directory _ hget
    constructor
    · rintro ⟨id, hentry⟩
      have hlive := (htracks.watches_iff hwf).mpr ⟨location, hentry, hget⟩
      obtain ⟨top, place, htop, hplace, hbelow⟩ := h.anchor hlive hget
      have hreach : t.roots.Reach (pathOf place) := by
        rcases htop with ⟨root, hroot, rfl⟩ | htop
        · obtain ⟨other, hpath, hother⟩ := hnamed root hroot
          obtain rfl := hwf.unique hplace hother
          exact hpath ▸ Roots.reach_of_mem hroot
        · exact hcaught top place htop hplace
      exact reach_below hnamed.standIn hwf (hwf.isPlace hget) hreach (hwf.isPlace hplace) hbelow
    · exact hrooted.covers hwf hbacklog hdraining hget

end Rest

/-- However directories are made and removed and events are taken in, taking in an event fails only
for want of room. Once no event waits, the live roots are those whose directory was never removed,
and the table has all that stands below them. It has nothing else if and only if each directory that
was caught is gone again or stands below a live root. -/
theorem creations_and_deletions_converge (h : Unfolds named tree t lost caught) :
    (∀ now fault, (pump ⟨tree, now⟩ t).result = .error fault →
      WatchTable.capacityLimit < tree.nextId + t.table.step) ∧
    (t.source.queue = [] → Converged tree named lost t ∧
      (Exact tree t ↔ ∀ directory location, caught directory →
        tree.get? location = some (.directory directory) → t.roots.Reach (pathOf location))) := by
  obtain ⟨hwf, notices, hbacklog, hrooted, hanchored⟩ := h.backlog
  constructor
  · intro now fault hfault
    exact ((hbacklog.ends_pump hwf).of_error hfault).resolve_left (absurd hbacklog.refused)
  · intro hqueue
    obtain ⟨hdraining, rfl⟩ := hbacklog.eq_nil hqueue
    exact ⟨hrooted.converged hwf hbacklog hdraining,
      hanchored.exact_iff hwf hrooted hbacklog hdraining⟩

/-- A directory in a new directory, made before the news of that is taken in. -/
theorem creations_and_deletions_converge_of_early_child : ∃ tree t lost caught,
    Unfolds ⟨[some ⟨pathOf [[114]], 1⟩], 0⟩ tree t lost caught ∧ t.source.queue = [] ∧
      t.table.entries.length = 3 ∧ Converged tree ⟨[some ⟨pathOf [[114]], 1⟩], 0⟩ lost t ∧
      Exact tree t := by
  let named : Roots := ⟨[some ⟨pathOf [[114]], 1⟩], 0⟩
  let first := FileTree.empty.putDirectory [[114]]
  have hfirst : first.WellFormed :=
    WellFormed.empty.putDirectory (FileTree.get?_nil _) (by decide) (by decide)
  have hstart := @Unfolds.start named first (ofRoots .empty named ⟨true, .rescan⟩)
    [pathOf [[114]]] 0 .goesOn hfirst (fun location directory =>
      hfirst.isShort_of_objects (by decide +kernel))
    (by decide +kernel) ⟨rfl, rfl, rfl, rfl, rfl⟩ rfl rfl (by decide +kernel)
  have hmade := @Unfolds.make named _ _ _ _ [[114]] [97] 1 hstart (by decide) (by decide)
    (by decide) (by decide +kernel)
  have hinside := @Unfolds.make named _ _ _ _ [[114], [97]] [98] 2 hmade (by decide) (by decide)
    (by decide) (by decide +kernel)
  have htaken := @Unfolds.pump named _ _ _ _ (some .goesOn) 0 hinside (by decide +kernel)
  obtain ⟨hconverged, hexact⟩ := (creations_and_deletions_converge htaken).2 (by decide +kernel)
  refine ⟨_, _, _, _, htaken, by decide +kernel, by decide +kernel, hconverged, hexact.mpr ?_⟩
  -- The news is of a directory made in one that still stands.
  have honly (live : List (WatchId × DirectoryId)) (hsingle : live = [(⟨1⟩, 1)])
      (watch : WatchId × DirectoryId) (hwatch : watch ∈ live) : watch.2 = 1 := by
    rw [hsingle, List.mem_singleton] at hwatch
    exact congrArg Prod.snd hwatch
  rintro directory location (hnone | ⟨event, later, name, path, holder, -, -, -, -, hlive,
    hgone, -⟩)
  · exact hnone.elim
  · obtain rfl := honly _ (by decide +kernel) _ hlive
    exact absurd (by decide) (hgone [[114]])

/-- A root is removed, made anew and given a directory under the name that late news speaks of. The
table keeps this directory, which no live root reaches. -/
theorem stray_below_retired_root : ∃ tree t lost caught,
    Unfolds ⟨[some ⟨pathOf [[114]], 1⟩, some ⟨pathOf [[115]], 2⟩], 0⟩ tree t lost caught ∧
      t.source.queue = [] ∧ ¬ Exact tree t := by
  let named : Roots := ⟨[some ⟨pathOf [[114]], 1⟩, some ⟨pathOf [[115]], 2⟩], 0⟩
  let before := FileTree.empty.putDirectory [[114]]
  let first := before.putDirectory [[115]]
  have hbefore : before.WellFormed :=
    WellFormed.empty.putDirectory (FileTree.get?_nil _) (by decide) (by decide)
  have hfirst : first.WellFormed :=
    hbefore.putDirectory (FileTree.get?_nil _) (by decide) (by decide)
  have hstart := @Unfolds.start named first (ofRoots .empty named ⟨true, .rescan⟩)
    [pathOf [[114]], pathOf [[115]]] 0 .goesOn hfirst
    (fun location directory => hfirst.isShort_of_objects (by decide +kernel)) (by decide +kernel)
    ⟨rfl, rfl, rfl, rfl, rfl⟩ rfl rfl (by decide +kernel)
  have hmade := @Unfolds.make named _ _ _ _ [[114]] [97] 1 hstart (by decide) (by decide)
    (by decide) (by decide +kernel)
  have hgone := @Unfolds.remove named _ _ _ _ [[114], [97]] 3 hmade (by decide) (by decide)
    (hmade.backlog.1.free_of_objects (by decide +kernel))
  have hlost := @Unfolds.remove named _ _ _ _ [[114]] 1 hgone (by decide) (by decide)
    (hgone.backlog.1.free_of_objects (by decide +kernel))
  have hagain := @Unfolds.make named _ _ _ _ [] [114] 0 hlost (by decide) (by decide) (by decide)
    (by decide +kernel)
  have hinside := @Unfolds.make named _ _ _ _ [[114]] [97] 4 hagain (by decide) (by decide)
    (by decide) (by decide +kernel)
  -- The news of the first child catches the directory that has its name by now, and the root ends.
  have hcaught := @Unfolds.pump named _ _ _ _ (some .goesOn) 0 hinside (by decide +kernel)
  have hended := @Unfolds.pump named _ _ _ _ (some .goesOn) 0 hcaught (by decide +kernel)
  have hforgotten := @Unfolds.pump named _ _ _ _ (some .goesOn) 0 hended (by decide +kernel)
  refine ⟨_, _, _, _, hforgotten, by decide +kernel, ?_⟩
  intro hexact
  obtain ⟨place, directory, -, -, -, root, hroot, hbelow⟩ :=
    (hexact.covers (pathOf [[114], [97]])).mp (by decide +kernel)
  refine Bool.false_ne_true (Eq.trans ?_ hbelow)
  revert root
  decide +kernel

end Tracker

end TreeWatch
