import TreeWatch.Proofs.Tracker.Mirror

/-!
# Following one change

How a mirror takes in each kind of change: a directory that appears is covered, one that goes away
takes its entry, its watch and its root along, and one that is moved takes its entries to the new
place or, if no root reaches that, loses them.
-/

namespace TreeWatch

open FileTree

namespace Tracker

open TreeWatch.Action

variable {tree next : FileTree} {t u v : Tracker} {id : WatchId} {event : Event}
  {location place parent source target : Location} {name : Bytes} {directory holder : DirectoryId}

/-- A mirror of the tree after a change: the root at the place that was left is the only one
retired. -/
def Follows (next : FileTree) (t : Tracker) (vacated : Option Location) (u : Tracker) : Prop :=
  Mirrors next u ∧
    u.roots.live = t.roots.live.filter fun root => vacated.all fun location =>
    root.path ≠ pathOf location

theorem Follows.of_tracks {vacated : Option Location} (hwf : next.WellFormed)
    (h : Tracks next (fun location => v.roots.Reach (pathOf location)) v)
    (hstandIn : v.roots.StandIn next) (hvacated : v.roots.live = t.roots.live.filter fun root =>
      vacated.all fun location => root.path ≠ pathOf location)
    (hsound : u.source.Sound) (hlive : u.source.live = v.source.live) (htable : u.table = v.table)
    (hroots : u.roots = v.roots) (hqueue : u.source.queue = []) (hquiet : u.departures = .empty)
    (hdraining : u.draining = []) : Follows next t vacated u := by
  refine ⟨Tracks.mirrors hwf ?_ (hroots ▸ hstandIn) hqueue hquiet hdraining, hroots ▸ hvacated⟩
  rw [hroots]
  exact h.of_same hsound hlive htable

/-- What no change touched is tracked as before. -/
theorem Mirrors.outside (hwf : tree.WellFormed) (h : Mirrors tree t)
    (hfree : tree.get? place = none)
    (hstand : ∀ location directory, t.roots.Reach (pathOf location) → ¬ place <+: location →
      (next.get? location = some (.directory directory) ↔
        tree.get? location = some (.directory directory))) :
    Tracks next (fun location => t.roots.Reach (pathOf location) ∧ ¬ place <+: location) t := by
  refine (h.tracks.congr fun location directory _ hlocation => ?_).transfer
    fun location directory hheld => hstand location directory hheld.1 hheld.2
  exact (and_iff_left (hwf.not_prefix_of_free hfree hlocation)).symm

/-- Where a directory left and nothing came to be reached, a mirror without the entries at and below
the place that it left is a mirror of what stands now. -/
theorem Mirrors.vacated (hwf : tree.WellFormed) (hwf' : next.WellFormed) (h : Mirrors tree t)
    (hplace : IsPlace place) (hnone : ∀ location, place <+: location → next.get? location = none)
    (hstand : ∀ location directory, t.roots.Reach (pathOf location) → ¬ place <+: location →
      (next.get? location = some (.directory directory) ↔
        tree.get? location = some (.directory directory)))
    (honly : ∀ root ∈ t.roots.live, root.path.isBelow (pathOf place) = true →
      root.path = pathOf place)
    (entries : List Entry)
    (hmem : ∀ entry ∈ t.table.entries, entry ∈ entries ↔ entry.path.isBelow (pathOf place) = true)
    (hperm : t.table.entries.Perm (entries ++ u.table.entries))
    (hlive : u.source.live = t.source.live.filter fun watch =>
      !(entries.map (·.id)).contains watch.1)
    (hnextId : u.source.nextId = t.source.nextId)
    (hroots : u.roots.live = t.roots.live.filter fun root => root.path ≠ pathOf place)
    (hqueue : u.source.queue = []) (hquiet : u.departures = .empty) (hdraining : u.draining = []) :
    Follows next t (some place) u := by
  have hmemRoots : ∀ {root}, root ∈ u.roots.live ↔
      root ∈ t.roots.live ∧ root.path ≠ pathOf place := by
    intro root
    rw [hroots, List.mem_filter, decide_eq_true_iff]
  have htracks : Tracks next (fun location => u.roots.Reach (pathOf location)) u := by
    refine ((h.tracks.dropped hwf hplace hmem hperm hlive hnextId).transfer
      fun location directory hheld => hstand location directory hheld.1 hheld.2).congr
      fun location directory _ hlocation => ?_
    have hnot : ¬ place <+: location := fun hbelow => by
      rw [hnone location hbelow] at hlocation
      exact absurd hlocation (by simp)
    rw [Roots.reach_iff_of_filter hroots hplace (hwf'.isPlace hlocation) hnot]
    exact and_iff_left hnot
  have hstandIn : u.roots.StandIn next := by
    intro root hroot
    obtain ⟨hold, hne⟩ := hmemRoots.mp hroot
    obtain ⟨location, directory, hpath, hlocation⟩ := h.roots root hold
    have hlocated := hwf.isPlace hlocation
    refine ⟨location, directory, hpath, (hstand location directory ?_ fun hbelow =>
      hne ?_).mpr hlocation⟩
    · exact hpath ▸ Roots.reach_of_mem hold
    · exact honly root hold (hpath ▸ (isBelow_pathOf_iff hlocated hplace).mpr hbelow)
  exact ⟨htracks.mirrors hwf' hstandIn hqueue hquiet hdraining, by simpa using hroots⟩

theorem Mirrors.drains_queued {P : Tracker → Prop} {rest : List Event} (h : Mirrors tree t)
    (hkind : event.kind ≠ .ignored) (hhandle : ∀ now source, source.Sound →
      source.live = t.source.live → source.queue = rest → source.nextId = t.source.nextId →
      source.refused = t.source.refused →
      (handle event).Ends ⟨next, now⟩ { t with source } (fun _ u => Drains next P u)
        fun _ _ => False) :
    Drains next P (t.queued (event :: rest)) := by
  have hqueue : (t.queued (event :: rest)).source.queue = event :: rest := by simp [queued, h.queue]
  refine .of_kept hqueue hkind (h.sound.of_sublist (List.Sublist.refl _) rfl) hhandle

theorem drains_of_arrival (hwf : next.WellFormed) (h : Mirrors tree t)
    (hkind : event.kind = .create ∨ event.kind = .movedTo) (hdirectory : event.isDirectory = true)
    (hname : event.name = some name) (hroots : t.roots.StandIn next)
    (htracks : Tracks next (fun location => t.roots.Reach (pathOf location) ∧
      ¬ parent ++ [name] <+: location) t)
    (hentry : ⟨event.watch, pathOf parent⟩ ∈ t.table.entries)
    (hget : next.get? (parent ++ [name]) = some (.directory directory))
    (hreach : t.roots.Reach (pathOf parent)) (hfree : ¬ Obstructed next t) :
    Drains next (fun u => Mirrors next u ∧ u.roots = t.roots) (t.queued [event]) := by
  have hplace := hwf.isPlace hget
  have hnotIgnored : event.kind ≠ .ignored := by rcases hkind with hkind | hkind <;> simp [hkind]
  apply h.drains_queued hnotIgnored
  intro now source hsound hlive hrest _ hrefused
  have htaken := @Tracks.of_same _ t { t with source } _ htracks hsound hlive rfl
  have hfree' : ¬ Obstructed next { t with source } := by
    simpa only [Obstructed, hrefused] using hfree
  have hhandle := @ends_handle_arrival { t with source } event next now parent name hwf h.departures
    (by simp [h.draining]) hkind hdirectory hname hentry hplace (hwf.linkFree hget) (by simp [hget])
    (htaken.aligned hwf)
  refine hhandle.mono (fun _ u hu => ?_) fun _ _ => hfree'
  obtain ⟨haside, huroots, n, hgrown⟩ := hu
  have hheld : Tracks next (fun location => u.roots.Reach (pathOf location)) u := by
    apply (htaken.grown hgrown).congr
    intro location directory _ hlocation
    rw [huroots]
    constructor
    · rintro (⟨hold, -⟩ | hbelow)
      · exact hold
      · exact reach_below hroots hwf (hwf.isPlace hlocation) hreach hplace.left
          ((List.prefix_append _ _).trans hbelow)
    · intro hold
      by_cases hbelow : parent ++ [name] <+: location
      · exact .inr hbelow
      · exact .inl ⟨hold, hbelow⟩
  exact .done (hgrown.queue.trans hrest) ⟨hheld.mirrors hwf (huroots ▸ hroots)
    (hgrown.queue.trans hrest) (haside.departures.trans h.departures)
    (haside.draining.trans h.draining), huroots⟩

section Made

theorem drains_made (hwf : tree.WellFormed) (h : Mirrors tree t)
    (hold : ∀ location directory, tree.get? location = some (.directory directory) →
      IsShort location)
    (hparent : tree.get? parent = some (.directory holder)) (hname : IsName name)
    (hfree : tree.get? (parent ++ [name]) = none)
    (hobstructed : ¬ Obstructed (tree.putDirectory (parent ++ [name])) t) :
    Drains (tree.putDirectory (parent ++ [name]))
      (Follows (tree.putDirectory (parent ++ [name])) t none)
      (t.queued (reported t.source tree parent fun id =>
        ⟨id, .create, true, none, some name⟩)) := by
  have hwf' := hwf.putDirectory hparent hname hfree
  have hget := fun location directory =>
    @get?_putDirectory_eq_some_iff tree (parent ++ [name]) location directory hfree
  have hroots : t.roots.StandIn (tree.putDirectory (parent ++ [name])) := by
    intro root hroot
    obtain ⟨location, directory, hpath, hlocation⟩ := h.roots root hroot
    exact ⟨location, directory, hpath, (hget _ _).mpr (.inr hlocation)⟩
  have houtside := h.outside hwf hfree fun location directory _ hnot =>
    (hget location directory).trans (or_iff_right fun heq => hnot (heq.1 ▸ List.prefix_rfl))
  by_cases hreach : t.roots.Reach (pathOf parent)
  · obtain ⟨id, hentry, -, hreported⟩ :=
      exists_reported hwf h.tracks (hold _ _ hparent) hparent hreach
    rw [hreported]
    refine (drains_of_arrival hwf' h (.inl rfl) rfl rfl hroots houtside hentry
      ((hget _ _).mpr (.inl ⟨rfl, rfl⟩)) hreach hobstructed).mono fun u hu => ⟨hu.1, ?_⟩
    simp [hu.2]
  · rw [reported_of_not_reach hwf h.tracks hparent hreach]
    have hheld : Tracks (tree.putDirectory (parent ++ [name]))
        (fun location => t.roots.Reach (pathOf location)) t := by
      refine houtside.congr fun location directory _ hlocation =>
        and_iff_left_of_imp fun hheld hbelow => ?_
      exact hreach (reach_parent_of_free h.roots hwf hfree hbelow (hwf'.isPlace hlocation) hheld)
    have hqueue : (t.queued []).source.queue = [] := by simp [queued, h.queue]
    refine .done hqueue ⟨Tracks.mirrors hwf' (hheld.of_same ?_ rfl rfl) hroots hqueue h.departures
      h.draining, by simp [queued]⟩
    exact h.sound.of_sublist (List.Sublist.refl _) rfl

end Made

section Vacated

/-- Where no root reaches and none stands below, nothing is reported, and nothing is to be done. -/
theorem drains_unreached (hwf : tree.WellFormed) (hwf' : next.WellFormed) (h : Mirrors tree t)
    (hget : tree.get? place = some (.directory directory))
    (hnone : ∀ location, place <+: location → next.get? location = none)
    (hstand : ∀ location directory, t.roots.Reach (pathOf location) → ¬ place <+: location →
      (next.get? location = some (.directory directory) ↔
        tree.get? location = some (.directory directory)))
    (hreach : ¬ t.roots.Reach (pathOf place))
    (habove : ∀ root ∈ t.roots.live, root.path.isBelow (pathOf place) = false) :
    Drains next (Follows next t (some place)) (t.queued []) := by
  have hplace := hwf.isPlace hget
  have hqueue : (t.queued []).source.queue = [] := by simp [queued, h.queue]
  have hunreached : ∀ entry ∈ t.table.entries, entry.path.isBelow (pathOf place) = false := by
    intro entry hentry
    obtain ⟨location, directory, hpath, -, hlocation, hreached, -⟩ := h.tracks.entry hentry
    have hlocated := hwf.isPlace hlocation
    apply Bool.eq_false_iff.mpr
    intro hbelow
    rw [hpath, isBelow_pathOf_iff hlocated hplace] at hbelow
    exact not_reach_below h.roots hwf hlocated hplace hreach habove hbelow hreached
  refine .done hqueue (h.vacated hwf hwf' hplace hnone hstand (fun root hroot hbelow => ?_) []
    (fun entry hentry => ?_) (List.Perm.refl _) ?_ rfl ?_ hqueue h.departures h.draining)
  · exact absurd hbelow (by simp [habove root hroot])
  · simp [hunreached entry hentry]
  · simp [queued]
  · refine (List.filter_eq_self.mpr fun root hroot => ?_).symm
    rw [decide_eq_true_iff]
    intro heq
    have hself := habove root hroot
    rw [heq, ← Bool.not_eq_true, isBelow_pathOf_iff hplace hplace] at hself
    exact hself List.prefix_rfl

theorem Tracks.mem_singleton_iff {held : Location → Prop} (hwf : tree.WellFormed)
    (h : Tracks tree held t) (hne : location ≠ [])
    (hget : tree.get? location = some (.directory directory))
    (hempty : ∀ name, tree.get? (location ++ [name]) = none)
    (hlive : (id, directory) ∈ t.source.live) (entry : Entry) (hentry : entry ∈ t.table.entries) :
    entry ∈ [⟨id, pathOf location⟩] ↔
      entry.path.isBelow (pathOf location) = true := by
  have hplace := hwf.isPlace hget
  obtain ⟨place, other, hpath, -, hplaceGet, -, hwatch⟩ := h.entry hentry
  rw [List.mem_singleton, hpath, isBelow_pathOf_iff (hwf.isPlace hplaceGet) hplace]
  constructor
  · intro heq
    obtain rfl := (pathOf_inj (hwf.isPlace hplaceGet) hplace).mp
      (hpath.symm.trans (congrArg (·.path) heq))
    exact List.prefix_rfl
  · intro hbelow
    obtain rfl : place = location := by
      have hnext := @get?_erase_of_empty _ _ place hwf hne hempty
      rw [get?_erase tree hne, if_pos hbelow, hplaceGet] at hnext
      by_contra hother
      rw [if_neg hother] at hnext
      exact absurd hnext (by simp)
    obtain rfl := eq_of_get?_directory hget hplaceGet
    exact Entry.mk.injEq .. ▸ ⟨h.sound.eq_of_directory hwatch hlive, hpath⟩

/-- The end of a directory is told twice, and with the first its entry goes. -/
theorem drains_deleted (hwf : tree.WellFormed) (hwf' : next.WellFormed) (h : Mirrors tree t)
    (hapart : t.roots.Apart) (hne : location ≠ [])
    (hget : tree.get? location = some (.directory directory))
    (hempty : ∀ name, tree.get? (location ++ [name]) = none)
    (hnone : ∀ place, location <+: place → next.get? place = none)
    (hstand : ∀ place other, t.roots.Reach (pathOf place) → ¬ location <+: place →
      (next.get? place = some (.directory other) ↔ tree.get? place = some (.directory other)))
    (hreach : t.roots.Reach (pathOf location)) (hentry : ⟨id, pathOf location⟩ ∈ t.table.entries)
    (hlive : (id, directory) ∈ t.source.live) :
    Drains next (Follows next t (some location))
      (t.queued [.onWatch id .deleteSelf, .onWatch id .ignored]) := by
  have hplace := hwf.isPlace hget
  apply h.drains_queued (by simp [Event.onWatch])
  intro now source hsound hkept hrest hnextId _
  have htaken := @Tracks.of_same _ t { t with source } _ h.tracks hsound hkept rfl
  refine Ends.imp (ends_handle_deleteSelf h.departures (by simp [h.draining]) (htaken.aligned hwf)
    hentry) ?_
  rintro _ u ⟨slot, roots, counts, hslot, hroots, rfl⟩
  have hperm := WatchTable.entries_erase hslot
  have habsent : ∀ entry ∈ (t.table.erase slot).entries, entry.id ≠ id := fun entry hmem =>
    ((WatchTable.mem_entries_erase_iff h.tracks.ids hslot).mp hmem).2
  apply Drains.of_cons hrest
  intro now last hlast hlastLive hlastId _
  refine Ends.imp (ends_handle_ignored h.departures habsent) ?_
  rintro _ u ⟨counts, rfl⟩
  refine .done hlast (h.vacated hwf hwf' hplace hnone hstand
    (fun root hroot hbelow => hapart.path_eq h.roots hwf hplace hreach hroot hbelow)
    [⟨id, pathOf location⟩] (h.tracks.mem_singleton_iff hwf hne hget hempty hlive) hperm ?_
      ?_ ?_ hlast
    h.departures ?_)
  · rw [hlastLive]
    change (source.forget id).live = _
    simp [Source.forget, hkept, bne, beq_eq_decide]
  · exact hlastId.trans hnextId
  · exact hroots.trans (hapart.eraseP_live h.roots hwf hplace)
  · simp [h.draining]

/-- A directory that holds nothing is removed. -/
theorem drains_removed (hwf : tree.WellFormed) (h : Mirrors tree t) (hapart : t.roots.Apart)
    (hold : ∀ location directory, tree.get? location = some (.directory directory) →
      IsShort location)
    (hne : location ≠ []) (hget : tree.get? location = some (.directory directory))
    (hempty : ∀ name, tree.get? (location ++ [name]) = none)
    (habove : t.roots.Reach (pathOf location) ∨
      ∀ root ∈ t.roots.live, root.path.isBelow (pathOf location) = false) :
    Drains (tree.erase location) (Follows (tree.erase location) t (some location))
      (t.queued (reported t.source tree location (.onWatch · .deleteSelf) ++
        reported t.source tree location (.onWatch · .ignored))) := by
  have hwf' := hwf.erase hne
  have hnone : ∀ place, location <+: place → (tree.erase location).get? place = none := by
    intro place hbelow
    rw [get?_erase tree hne, if_pos hbelow]
  have hstand : ∀ place other, t.roots.Reach (pathOf place) → ¬ location <+: place →
      ((tree.erase location).get? place = some (.directory other) ↔
        tree.get? place = some (.directory other)) := by
    intro place other _ hnot
    rw [get?_erase tree hne, if_neg hnot]
  by_cases hreach : t.roots.Reach (pathOf location)
  · obtain ⟨id, hentry, hlive, hreported⟩ :=
      exists_reported hwf h.tracks (hold _ _ hget) hget hreach
    rw [hreported, hreported]
    exact drains_deleted hwf hwf' h hapart hne hget hempty hnone hstand hreach hentry hlive
  · rw [reported_of_not_reach hwf h.tracks hget hreach,
      reported_of_not_reach hwf h.tracks hget hreach]
    exact drains_unreached hwf hwf' h hget hnone hstand hreach (habove.resolve_left hreach)

end Vacated

end Tracker

end TreeWatch
