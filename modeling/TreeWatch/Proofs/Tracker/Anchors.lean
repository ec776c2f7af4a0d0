import TreeWatch.Proofs.Roots.Naming
import TreeWatch.Proofs.Tracker.CatchingUp

/-!
# What holds watched directories

A root is live until its directory is removed and the news of that is taken in. Everything else that
is watched lies below the directory of a live root, or below one that was caught: a directory that
happened to stand at the place which the late news of a directory, made in one that is gone by then,
speaks of.
-/

namespace TreeWatch

open FileTree

namespace Tracker

open TreeWatch.Action

variable {tree next : FileTree} {t u : Tracker} {named : Roots} {lost : List DirectoryId}
  {caught : DirectoryId → Prop} {id : WatchId} {notices rest : List Notice}
  {location parent : Location} {name : Bytes} {directory holder : DirectoryId}

/-- The live roots are those that were named and whose directory was not removed, as far as this was
taken in. -/
structure Rooted (tree : FileTree) (named : Roots) (lost : List DirectoryId) (t : Tracker) :
    Prop where
  sub : t.roots.live ⊆ named.live
  distinct : (t.roots.live.map (·.directory)).Nodup
  known : ∀ root ∈ named.live, root.directory < tree.nextId
  gone : ∀ directory ∈ lost, directory < tree.nextId ∧
    ∀ location, tree.get? location ≠ some (.directory directory)
  stands : ∀ root ∈ named.live, root.directory ∉ lost → ∃ location,
    root.path = pathOf location ∧ tree.get? location = some (.directory root.directory)
  kept : ∀ root ∈ named.live, ∀ location, tree.get? location = some (.directory root.directory) →
    root ∈ t.roots.live
  /-- The watch of a live root is the oldest under its path. -/
  entered : ∀ root ∈ t.roots.live, ∃ id location, root.path = pathOf location ∧ IsPlace location ∧
    (id, root.directory) ∈ t.source.live ∧ ⟨id, pathOf location⟩ ∈ t.table.entries ∧
    ∀ {other}, ⟨other, pathOf location⟩ ∈ t.table.entries → id.raw ≤ other.raw

namespace Rooted

theorem make (h : Rooted tree named lost t) (hfree : tree.get? (parent ++ [name]) = none)
    (events : List Event) :
    Rooted (tree.putDirectory (parent ++ [name])) named lost (t.queued events) := by
  have hget := fun location directory =>
    @get?_putDirectory_eq_some_iff tree (parent ++ [name]) location directory hfree
  refine ⟨h.sub, h.distinct, ?_, ?_, ?_, ?_, h.entered⟩
  · intro root hroot
    exact Nat.lt_succ_of_lt (h.known root hroot)
  · intro directory hlost
    obtain ⟨hlt, hnone⟩ := h.gone directory hlost
    refine ⟨Nat.lt_succ_of_lt hlt, ?_⟩
    intro location hdirectory
    rcases (hget _ _).mp hdirectory with ⟨-, rfl⟩ | hold
    · exact Nat.lt_irrefl _ hlt
    · exact hnone location hold
  · intro root hroot hnot
    obtain ⟨location, hpath, hold⟩ := h.stands root hroot hnot
    exact ⟨location, hpath, (hget _ _).mpr (.inr hold)⟩
  · intro root hroot location hdirectory
    rcases (hget _ _).mp hdirectory with ⟨-, heq⟩ | hold
    · exact absurd (h.known root hroot) (by rw [heq]; exact Nat.lt_irrefl _)
    · exact h.kept root hroot location hold

theorem remove (h : Rooted tree named lost t) (hwf : tree.WellFormed) (hne : location ≠ [])
    (hget : tree.get? location = some (.directory directory))
    (hempty : ∀ name, tree.get? (location ++ [name]) = none) (events : List Event) :
    Rooted (tree.erase location) named (directory :: lost) (t.queued events) := by
  have hold := fun place other =>
    @get?_erase_eq_some_iff tree location place (.directory other) hwf hne hempty
  refine ⟨h.sub, h.distinct, h.known, ?_, ?_, ?_, h.entered⟩
  · intro other hlost
    rcases List.mem_cons.mp hlost with rfl | hlost
    · refine ⟨hwf.known hget, ?_⟩
      intro place hother
      obtain ⟨hother, hplace⟩ := (hold _ _).mp hother
      exact hother (hwf.unique hplace hget)
    · obtain ⟨hlt, hnone⟩ := h.gone other hlost
      exact ⟨hlt, fun place hother => hnone place ((hold _ _).mp hother).2⟩
  · intro root hroot hnot
    rw [List.mem_cons, not_or] at hnot
    obtain ⟨place, hpath, hplace⟩ := h.stands root hroot hnot.2
    refine ⟨place, hpath, (hold _ _).mpr ⟨?_, hplace⟩⟩
    rintro rfl
    exact hnot.1 (eq_of_get?_directory hplace hget)
  · intro root hroot place hother
    exact h.kept root hroot place ((hold _ _).mp hother).2

/-- The root at the path of a watch that ends first is the one whose watch that is. -/
theorem eq_of_removed (h : Rooted tree named lost t)
    (hbacklog : Backlog tree t (.removed id :: rest)) {path : Path}
    (hentry : ⟨id, path⟩ ∈ t.table.entries) {root : Root} (hroot : root ∈ t.roots.live)
    (hsame : root.path.same path = true) :
    (id, root.directory) ∈ t.source.live ∧ root.path = path := by
  obtain ⟨first, location, hpath, hplace, hlive, hfirst, holdest⟩ := h.entered root hroot
  obtain ⟨-, -, place, rfl, hplaced, -⟩ := hbacklog.entry hentry
  obtain rfl : location = place := (same_pathOf_iff hplace hplaced).mp (hpath ▸ hsame)
  obtain rfl : first = id := by
    by_contra hne
    have hraw : first.raw ≠ id.raw := fun heq => hne (congrArg WatchId.mk heq)
    have hle := holdest hentry
    exact hne (hbacklog.successive hfirst hentry (by omega)).eq_of_head
  exact ⟨hlive, hpath⟩

theorem forget (h : Rooted tree named lost t) (hbacklog : Backlog tree t notices) {source : Source}
    {counts : Counts} (hdraining : t.draining = [id])
    (htook : Took (t.source.forget id) source (notices.flatMap Notice.events)) :
    Rooted tree named lost { t with source, draining := [], counts } := by
  refine ⟨h.sub, h.distinct, h.known, h.gone, h.stands, h.kept, ?_⟩
  intro root hroot
  obtain ⟨first, location, hpath, hplace, hlive, hfirst, holdest⟩ := h.entered root hroot
  refine ⟨first, location, hpath, hplace, ?_, hfirst, holdest⟩
  have hnot := (hbacklog.entry hfirst).1
  rw [hdraining, List.mem_singleton] at hnot
  rw [htook.live, Source.mem_live_forget]
  exact ⟨hlive, hnot⟩

theorem retire (h : Rooted tree named lost t) (hbacklog : Backlog tree t (.removed id :: rest))
    {path : Path} {slot : Nat} {source : Source} {roots : Roots} {counts : Counts}
    {queue : List Event} (hslot : t.table.get? slot = some ⟨id, path⟩)
    (hroots : roots.live = t.roots.live.eraseP (·.path.same path))
    (htook : Took t.source source queue) :
    Rooted tree named lost
      { t with source, table := t.table.erase slot, roots, counts, draining := [id] } := by
  have hentry := WatchTable.mem_entries_of_get? hslot
  have hretired : roots.live = t.roots.live.filter fun root => !root.path.same path := by
    rw [hroots]
    apply Roots.eraseP_eq_filter
    refine (List.pairwise_map.mp h.distinct).imp_of_mem fun {a b} ha hb hne hboth => hne ?_
    exact hbacklog.sound.eq_of_id (h.eq_of_removed hbacklog hentry ha hboth.1).1
      (h.eq_of_removed hbacklog hentry hb hboth.2).1
  have hlive : roots.live.Sublist t.roots.live := hretired ▸ List.filter_sublist
  refine ⟨List.Subset.trans hlive.subset h.sub, h.distinct.sublist (hlive.map _), h.known, h.gone,
    h.stands, ?_, ?_⟩
  · intro root hroot location hget
    have hold := h.kept root hroot location hget
    rw [hretired, List.mem_filter, Bool.not_eq_true']
    refine ⟨hold, Bool.eq_false_iff.mpr fun hsame => ?_⟩
    have hwatch := (h.eq_of_removed hbacklog hentry hold hsame).1
    exact (hbacklog.standing hwatch hget).2 (List.mem_cons_self ..)
  · intro root hroot
    have hmem := hroot
    rw [hretired, List.mem_filter, Bool.not_eq_true'] at hmem
    obtain ⟨first, location, hpath, hplace, hwatch, hfirst, holdest⟩ := h.entered root hmem.1
    have hperm := WatchTable.entries_erase hslot
    refine ⟨first, location, hpath, hplace, htook.live ▸ hwatch, ?_,
      fun hother => holdest (hperm.mem_iff.mpr (List.mem_cons_of_mem _ hother))⟩
    apply (List.mem_cons.mp (hperm.mem_iff.mp hfirst)).resolve_left
    intro heq
    have hsame : root.path.same path = true := by
      rw [hpath, ← (Entry.mk.inj heq).2]
      exact (same_pathOf_iff hplace hplace).mpr rfl
    exact Bool.false_ne_true (hmem.2.symm.trans hsame)

theorem arrive (h : Rooted tree named lost t) (hsound : t.source.Sound) {source : Source}
    {queue : List Event} {region : Location → Prop} {n : Nat} (htook : Took t.source source queue)
    (hroots : u.roots = t.roots) (hgrown : Grown tree region { t with source } u n) :
    Rooted tree named lost u := by
  refine ⟨hroots ▸ h.sub, hroots ▸ h.distinct, h.known, h.gone, h.stands, hroots ▸ h.kept, ?_⟩
  rw [hroots]
  intro root hroot
  obtain ⟨first, place, hpath, hplaced, hwatch, hfirst, holdest⟩ := h.entered root hroot
  refine ⟨first, place, hpath, hplaced, hgrown.live (htook.live.symm ▸ hwatch),
    hgrown.entries hfirst, ?_⟩
  intro other hother
  rcases hgrown.newEntry _ hother with hold | ⟨_, _, -, -, -, -, -, hissued⟩
  · exact holdest hold
  · obtain ⟨number, hnumber, hlt⟩ := hsound.issued _ hwatch
    have hraw : first.raw = number := congrArg WatchId.raw hnumber
    have hnext : (t.source.nextId : Int) ≤ other.raw := htook.nextId ▸ hissued
    omega

/-- Taking in an event keeps the live roots what they are said to be. -/
theorem takes (h : Rooted tree named lost t) (hbacklog : Backlog tree t notices)
    (htakes : Takes tree t notices u rest) : Rooted tree named lost u := by
  cases htakes with
  | nothing => exact h
  | forgets hdraining htook => exact h.forget hbacklog hdraining htook
  | ends _ hslot hroots htook => exact h.retire hbacklog hslot hroots htook
  | arrives _ _ _ htook _ hroots hgrown => exact h.arrive hbacklog.sound htook hroots hgrown

end Rooted

/-- A directory is caught when the event in front tells of a directory made in one that is gone, and
this one stands at the place which that speaks of. -/
def Catches (tree : FileTree) (t : Tracker) (directory : DirectoryId) : Prop :=
  ∃ event later name path holder, t.source.queue = event :: later ∧ event.kind = .create ∧
    event.name = some name ∧ ⟨event.watch, path⟩ ∈ t.table.entries ∧
    (event.watch, holder) ∈ t.source.live ∧
    (∀ location, tree.get? location ≠ some (.directory holder)) ∧
    tree.inspect (path.child name) = .ok (.directory directory)

theorem Catches.exists_made (h : Catches tree t directory) (hbacklog : Backlog tree t notices)
    (hwf : tree.WellFormed) : ∃ id name later holder location, notices = .made id name :: later ∧
      t.draining = [] ∧ ⟨id, pathOf location⟩ ∈ t.table.entries ∧ (id, holder) ∈ t.source.live ∧
      (∀ place, tree.get? place ≠ some (.directory holder)) ∧
      tree.get? (location ++ [name]) = some (.directory directory) := by
  obtain ⟨event, later, name, path, holder, hfront, hkind, hname, hentry, hlive, hgone, hinspect⟩ :=
    h
  have hqueue := hbacklog.queue
  rw [hfront] at hqueue
  rcases hbacklog.draining_cases with hdraining | ⟨id, hdraining⟩
  · rw [hdraining, List.map_nil, List.nil_append] at hqueue
    cases notices with
    | nil => simp at hqueue
    | cons notice rest =>
      cases notice with
      | removed id =>
        obtain ⟨rfl, -⟩ := List.cons.inj hqueue
        simp [Event.onWatch] at hkind
      | made id name' =>
        obtain ⟨rfl, -⟩ := List.cons.inj hqueue
        obtain rfl : name' = name := Option.some.inj hname
        obtain ⟨location, hentry', hplace, hclear⟩ := hbacklog.made (List.mem_cons_self ..)
        rw [WatchTable.eq_of_mem_entries hbacklog.ids hentry hentry',
          child_pathOf hplace.left hplace.last,
          inspect_pathOf_eq_ok_iff hwf hplace hclear.linkFree] at hinspect
        exact ⟨id, name', rest, holder, location, rfl, hdraining, hentry', hlive, hgone, hinspect.2⟩
  · rw [hdraining] at hqueue
    obtain ⟨rfl, -⟩ := List.cons.inj hqueue
    simp [Event.onWatch] at hkind

/-- Watched directories that stand lie below the directory of a live root or below one that was
caught. -/
structure Anchored (tree : FileTree) (caught : DirectoryId → Prop) (t : Tracker) : Prop where
  known : ∀ directory, caught directory → directory < tree.nextId
  watched : ∀ {directory location}, caught directory →
    tree.get? location = some (.directory directory) → ∃ id, (id, directory) ∈ t.source.live
  anchor : ∀ {id directory location}, (id, directory) ∈ t.source.live →
    tree.get? location = some (.directory directory) → ∃ top place,
      ((∃ root ∈ t.roots.live, root.directory = top) ∨ caught top) ∧
      tree.get? place = some (.directory top) ∧ place <+: location

namespace Anchored

theorem make (h : Anchored tree caught t) (hbacklog : Backlog tree t notices)
    (hfree : tree.get? (parent ++ [name]) = none) (events : List Event) :
    Anchored (tree.putDirectory (parent ++ [name])) caught (t.queued events) := by
  have hget := fun location directory =>
    @get?_putDirectory_eq_some_iff tree (parent ++ [name]) location directory hfree
  refine ⟨fun directory hcaught => Nat.lt_succ_of_lt (h.known directory hcaught), ?_, ?_⟩
  · intro directory location hcaught hdirectory
    rcases (hget _ _).mp hdirectory with ⟨-, rfl⟩ | hold
    · exact absurd (h.known _ hcaught) (Nat.lt_irrefl _)
    · exact h.watched hcaught hold
  · intro id directory location hlive hdirectory
    rcases (hget _ _).mp hdirectory with ⟨-, rfl⟩ | hold
    · exact absurd (hbacklog.known _ hlive) (Nat.lt_irrefl _)
    · obtain ⟨top, place, htop, hplace, hbelow⟩ := h.anchor hlive hold
      exact ⟨top, place, htop, (hget _ _).mpr (.inr hplace), hbelow⟩

theorem remove (h : Anchored tree caught t) (hwf : tree.WellFormed) (hne : location ≠ [])
    (hempty : ∀ name, tree.get? (location ++ [name]) = none) (events : List Event) :
    Anchored (tree.erase location) caught (t.queued events) := by
  have hold := fun place other =>
    @get?_erase_eq_some_iff tree location place (.directory other) hwf hne hempty
  refine ⟨h.known, fun hcaught hget => h.watched hcaught ((hold _ _).mp hget).2, ?_⟩
  intro id directory place hlive hget
  obtain ⟨top, above, htop, habove, hbelow⟩ := h.anchor hlive ((hold _ _).mp hget).2
  refine ⟨top, above, htop, (hold _ _).mpr ⟨?_, habove⟩, hbelow⟩
  rintro rfl
  rw [get?_erase tree hne, if_pos hbelow] at hget
  exact absurd hget (by simp)

theorem held (h : Anchored tree caught t) (hrooted : Rooted tree named lost t)
    (hkept : Rooted tree named lost u) (hlive : (id, directory) ∈ t.source.live)
    (hget : tree.get? location = some (.directory directory)) : ∃ top place,
      ((∃ root ∈ u.roots.live, root.directory = top) ∨ caught top) ∧
      tree.get? place = some (.directory top) ∧ place <+: location := by
  obtain ⟨top, place, htop, hplace, hbelow⟩ := h.anchor hlive hget
  refine ⟨top, place, htop.imp_left ?_, hplace, hbelow⟩
  rintro ⟨root, hroot, rfl⟩
  exact ⟨root, hkept.kept root (hrooted.sub hroot) place hplace, rfl⟩

/-- No watch came, and those of directories that stand stayed. -/
theorem keep (h : Anchored tree caught t) (hrooted : Rooted tree named lost t)
    (hkept : Rooted tree named lost u) (hsub : u.source.live ⊆ t.source.live)
    (hstay : ∀ {id directory location}, (id, directory) ∈ t.source.live →
      tree.get? location = some (.directory directory) → (id, directory) ∈ u.source.live) :
    Anchored tree caught u := by
  refine ⟨h.known, ?_, fun hlive => h.held hrooted hkept (hsub hlive)⟩
  intro directory location hcaught hget
  obtain ⟨id, hlive⟩ := h.watched hcaught hget
  exact ⟨id, hstay hlive hget⟩

theorem arrive (h : Anchored tree caught t) (hbacklog : Backlog tree t (.made id name :: rest))
    (hwf : tree.WellFormed) (hrooted : Rooted tree named lost t) (hkept : Rooted tree named lost u)
    {source : Source} {n : Nat} (hdraining : t.draining = [])
    (hentry : ⟨id, pathOf location⟩ ∈ t.table.entries) (hplace : IsPlace (location ++ [name]))
    (htook : Took t.source source (rest.flatMap Notice.events))
    (hgrown : Grown tree (location ++ [name] <+: ·) { t with source } u n) :
    Anchored tree (fun directory => caught directory ∨ Catches tree t directory) u := by
  refine ⟨?_, ?_, ?_⟩
  · rintro directory (hcaught | hcatches)
    · exact h.known directory hcaught
    · obtain ⟨_, _, _, _, _, -, -, -, -, -, hget⟩ := hcatches.exists_made hbacklog hwf
      exact hwf.known hget
  · rintro directory place (hcaught | hcatches) hget
    · obtain ⟨other, hwatch⟩ := h.watched hcaught hget
      exact ⟨other, hgrown.live (htook.live.symm ▸ hwatch)⟩
    · obtain ⟨_, _, _, _, place', heq, -, hentry', -, -, hchild⟩ :=
        hcatches.exists_made hbacklog hwf
      obtain ⟨hmade, rfl⟩ := List.cons.inj heq
      obtain ⟨rfl, rfl⟩ := Notice.made.inj hmade
      have hpath := WatchTable.eq_of_mem_entries hbacklog.ids hentry hentry'
      obtain rfl := (pathOf_inj hplace.left (hwf.isPlace hchild).left).mp hpath
      exact hgrown.covered List.prefix_rfl (hbacklog.short hchild) hchild
  · intro other directory place hwatch hget
    rcases hgrown.newWatch _ hwatch with hold | ⟨found, hbelow, -, hfound, -⟩
    · obtain ⟨top, above, htop, habove, hprefix⟩ := h.held hrooted hkept (htook.live ▸ hold) hget
      exact ⟨top, above, htop.imp_right .inl, habove, hprefix⟩
    · obtain rfl := hwf.unique hfound hget
      obtain ⟨-, ⟨holder, hholder⟩, -⟩ := hbacklog.entry hentry
      by_cases hstands : ∃ above, tree.get? above = some (.directory holder)
      · obtain ⟨above, habove⟩ := hstands
        obtain rfl := hbacklog.place_eq hwf hentry hplace.left hholder habove
        obtain ⟨top, topPlace, htop, htopGet, hprefix⟩ := h.held hrooted hkept hholder habove
        exact ⟨top, topPlace, htop.imp_right .inl, htopGet,
          hprefix.trans ((List.prefix_append _ _).trans hbelow)⟩
      · -- The directory that the news speaks of is gone, so what stands at its place is caught.
        obtain ⟨more, rfl⟩ := hbelow
        obtain ⟨child, hchild⟩ := hwf.exists_directory_above hget
        refine ⟨child, location ++ [name], .inr (.inr ?_), hchild, List.prefix_append _ _⟩
        have hqueue := hbacklog.queue
        rw [hdraining, List.map_nil, List.nil_append] at hqueue
        refine ⟨_, _, name, pathOf location, holder, hqueue, rfl, rfl, hentry, hholder,
          fun above habove => hstands ⟨above, habove⟩, ?_⟩
        rw [child_pathOf hplace.left hplace.last]
        exact (inspect_pathOf_eq_ok_iff hwf hplace (hwf.linkFree hchild)).mpr
          ⟨hbacklog.short hchild, hchild⟩

theorem takes (h : Anchored tree caught t) (hbacklog : Backlog tree t notices)
    (hwf : tree.WellFormed) (hrooted : Rooted tree named lost t)
    (htakes : Takes tree t notices u rest) :
    Anchored tree (fun directory => caught directory ∨ Catches tree t directory) u := by
  have hkept := hrooted.takes hbacklog htakes
  -- Only the news of a directory catches one.
  have hsame (hnone : ∀ directory, ¬ Catches tree t directory) :
      (fun directory => caught directory ∨ Catches tree t directory) = caught := by
    simp [hnone]
  cases htakes with
  | nothing =>
    rw [hsame]
    · exact h
    · intro directory hcatches
      obtain ⟨_, _, _, _, _, heq, -⟩ := hcatches.exists_made hbacklog hwf
      exact absurd heq (by simp)
  | @forgets _ id source counts hdraining htook =>
    have hlive {watch : WatchId × DirectoryId} : watch ∈ source.live ↔
        watch ∈ t.source.live ∧ watch.1 ≠ id := by rw [htook.live, Source.mem_live_forget]
    rw [hsame]
    · apply h.keep hrooted hkept
      · intro watch hwatch
        exact (hlive.mp hwatch).1
      · intro other directory location hwatch hget
        have hnot := (hbacklog.entry (hbacklog.standing hwatch hget).1).1
        rw [hdraining, List.mem_singleton] at hnot
        exact hlive.mpr ⟨hwatch, hnot⟩
    · intro directory hcatches
      obtain ⟨_, _, _, _, _, -, heq, -⟩ := hcatches.exists_made hbacklog hwf
      exact absurd (hdraining.symm.trans heq) (by simp)
  | ends _ _ _ htook =>
    rw [hsame]
    · exact h.keep hrooted hkept (htook.live ▸ List.Subset.refl _) fun hwatch _ => htook.live ▸
        hwatch
    · intro directory hcatches
      obtain ⟨_, _, _, _, _, heq, -⟩ := hcatches.exists_made hbacklog hwf
      exact absurd heq (by simp)
  | arrives hdraining hentry hplace htook _ _ hgrown =>
    exact h.arrive hbacklog hwf hrooted hkept hdraining hentry hplace htook hgrown

end Anchored

end Tracker

end TreeWatch
