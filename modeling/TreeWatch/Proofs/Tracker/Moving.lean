import TreeWatch.Proofs.Tracker.Following
import TreeWatch.Proofs.Tracker.Renames

/-!
# Following a move

A directory is moved from one place to another with all that it holds. Whether a root reaches the
place that it left, the directory that it left and the one in which it arrived decides what is
reported, and in every case the mirror follows.
-/

namespace TreeWatch

open FileTree

namespace Tracker

open TreeWatch.Action

variable {tree next : FileTree} {t u v : Tracker} {id : WatchId} {event : Event}
  {location place parent source target : Location} {name newName : Bytes} {directory : DirectoryId}

section Reached

theorem Mirrors.standIn_relocated (hwf : tree.WellFormed) (h : Mirrors tree t)
    (hapart : t.roots.Apart) (hmove : Movable tree source target name directory)
    (hsource : t.roots.Reach (pathOf source))
    (hroots : u.roots.live = t.roots.live.filter fun root => root.path ≠ pathOf source) :
    u.roots.StandIn (tree.relocate source (target ++ [name])) := by
  intro root hroot
  rw [hroots, List.mem_filter, decide_eq_true_iff] at hroot
  obtain ⟨place, other, hpath, hget⟩ := h.roots root hroot.1
  have hplace := hwf.isPlace hget
  have hnot : ¬ source <+: place := fun hbelow =>
    hroot.2 (hapart.path_eq h.roots hwf (hwf.isPlace hmove.get) hsource hroot.1
      (hpath ▸ (isBelow_pathOf_iff hplace (hwf.isPlace hmove.get)).mpr hbelow))
  refine ⟨place, other, hpath, ?_⟩
  rw [hmove.get_elsewhere hwf hnot (hwf.not_prefix_of_free hmove.free hget), hget]

/-- Where the entries were taken along, they are right again. -/
theorem Mirrors.relocated (hwf : tree.WellFormed) (h : Mirrors tree t) (hapart : t.roots.Apart)
    (hmove : Movable tree source target name directory)
    (hold : ∀ location directory, tree.get? location = some (.directory directory) →
      IsShort location)
    (hshort : ∀ location directory,
      (tree.relocate source (target ++ [name])).get? location = some (.directory directory) →
        IsShort location)
    (hsource : t.roots.Reach (pathOf source)) (htarget : t.roots.Reach (pathOf target))
    (hroots : u.roots.live = t.roots.live.filter fun root => root.path ≠ pathOf source)
    (hsound : u.source.Sound) (hlive : u.source.live = t.source.live)
    (htable : u.table = t.table.relocate (pathOf source) (pathOf (target ++ [name]))) :
    Tracks (tree.relocate source (target ++ [name])) (fun location =>
      u.roots.Reach (pathOf location)) u ∧
      u.roots.StandIn (tree.relocate source (target ++ [name])) ∧
      u.roots.Reach (pathOf (target ++ [name])) := by
  have hplace := hwf.isPlace hmove.get
  obtain ⟨holder, hholder⟩ := hmove.holder
  have hstandIn := h.standIn_relocated hwf hapart hmove hsource hroots
  have hwf' := hmove.wellFormed hwf
  have hreach : ∀ {location}, IsPlace location → ¬ source <+: location →
      (u.roots.Reach (pathOf location) ↔ t.roots.Reach (pathOf location)) :=
    fun hlocation hnot => Roots.reach_iff_of_filter hroots hplace hlocation hnot
  have hafter := (hwf.isPlace hholder).concat hmove.isName
  have hreached : u.roots.Reach (pathOf (target ++ [name])) :=
    reach_below hstandIn hwf' hafter ((hreach (hwf.isPlace hholder) hmove.out).mpr htarget)
      (hwf.isPlace hholder) (List.prefix_append _ _)
  refine ⟨h.tracks.moved hwf rfl hmove.ne hplace hafter hmove.free hold hshort
    (fun location other hget => ?_) hsound hlive ?_, hstandIn, hreached⟩
  · by_cases hbelow : source <+: location
    · obtain ⟨more, rfl⟩ := hbelow
      rw [placeAfter_append]
      exact iff_of_true
        (reach_below hstandIn hwf' (hafter.append (hwf.isPlace hget).right) hreached hafter
          (List.prefix_append _ _))
        (reach_below h.roots hwf (hwf.isPlace hget) hsource hplace (List.prefix_append _ _))
    · rw [placeAfter_eq_self hbelow]
      exact hreach (hwf.isPlace hget) hbelow
  · rw [htable, WatchTable.entries_relocate]

theorem Tracks.of_covered {n : Nat} (hwf : tree.WellFormed)
    (h : Tracks tree (fun location => v.roots.Reach (pathOf location)) v)
    (hstandIn : v.roots.StandIn tree) (hplace : IsPlace place)
    (hreached : v.roots.Reach (pathOf place)) (hroots : u.roots = v.roots)
    (hgrown : Grown tree (place <+: ·) v u n) :
    Tracks tree (fun location => u.roots.Reach (pathOf location)) u := by
  apply (h.grown hgrown).congr
  intro location other _ hlocation
  rw [hroots]
  exact or_iff_left_of_imp fun hbelow =>
    reach_below hstandIn hwf (hwf.isPlace hlocation) hreached hplace hbelow

/-- That a directory which is no root was itself moved is the last thing told of a move, and nothing
is to be done for it. -/
theorem drains_selfMoved (hwf : next.WellFormed)
    (htracks : Tracks next (fun location => u.roots.Reach (pathOf location)) u)
    (hstandIn : u.roots.StandIn next)
    (hroots : u.roots.live = t.roots.live.filter fun root => root.path ≠ pathOf source)
    (hget : next.get? place = some (.directory directory)) (hlive : (id, directory) ∈ u.source.live)
    (hnot : u.roots.isRoot (pathOf place) = false) (hsound : u.source.Sound)
    (hqueue : u.source.queue = [.onWatch id .moveSelf]) (hquiet : u.departures = .empty)
    (hdraining : u.draining = []) : Drains next (Follows next t (some source)) u := by
  refine .of_kept hqueue (by simp [Event.onWatch]) hsound fun now source hsound' hlive' hqueue'
    _ _ => ?_
  have htaken := @Tracks.of_same _ u { u with source } _ htracks hsound' hlive' rfl
  have haligned := htaken.aligned hwf
  refine Ends.imp (ends_handle_moveSelf hquiet (by simp [hdraining]) haligned
    (haligned.placed (hlive' ▸ hlive) hget)) ?_
  rintro _ v rfl
  rw [if_neg (by simp [hnot])]
  exact .done hqueue' (.of_tracks hwf htracks hstandIn (by simpa using hroots) hsound' hlive' rfl
    rfl hqueue' hquiet hdraining)

theorem drains_met (hwf : tree.WellFormed) (h : Mirrors tree t) (hapart : t.roots.Apart)
    (hmove : Movable tree source target newName directory)
    (hold : ∀ location directory, tree.get? location = some (.directory directory) →
      IsShort location)
    (hshort : ∀ location directory,
      (tree.relocate source (target ++ [newName])).get? location = some (.directory directory) →
        IsShort location)
    (hsource : t.roots.Reach (pathOf source)) (htarget : t.roots.Reach (pathOf target))
    {left entered : WatchId} {cookie since : Nat}
    (hentered : ⟨entered, pathOf target⟩ ∈ t.table.entries)
    (hentry : ⟨id, pathOf source⟩ ∈ t.table.entries) (hlive : (id, directory) ∈ t.source.live)
    {first : Source} (hsound : first.Sound) (hkept : first.live = t.source.live)
    (hqueue : first.queue =
      [⟨entered, .movedTo, true, some cookie, some newName⟩, .onWatch id .moveSelf])
    (hrefused : first.refused = []) (counts : Counts) :
    Drains (tree.relocate source (target ++ [newName]))
      (Follows (tree.relocate source (target ++ [newName])) t (some source))
      { t with
        source := first
        departures := ⟨[⟨cookie, left, pathOf source, since⟩]⟩
        counts } := by
  have hwf' := hmove.wellFormed hwf
  have hplace := hwf.isPlace hmove.get
  have hafter := hmove.get_target hwf
  have hplace' := hwf'.isPlace hafter
  apply Drains.of_kept hqueue (by simp) hsound
  intro now second hsound' hkept' hqueue' _ hrefused'
  have hsame := hkept'.trans hkept
  have htaken := @Tracks.of_same _ t { t with source := second } _ h.tracks hsound' hsame rfl
  have hcached := htaken.idAt? hwf hplace hentry
  have hadd : second.add (tree.relocate source (target ++ [newName]))
    (pathOf (target ++ [newName])) =
      .ok (id, second) :=
    add_of_live hwf' hsound' (hrefused'.trans hrefused) (hshort _ _ hafter) hafter (hsame ▸ hlive)
  refine Ends.imp (ends_handle_movedTo (by simp [h.draining]) rfl
    ((htaken.aligned hwf).of_same rfl rfl) hentered hplace' hcached hadd) ?_
  rintro _ u ⟨roots, counts', hroots, rfl⟩
  replace hroots := hroots.trans (hapart.eraseP_live h.roots hwf hplace)
  obtain ⟨htracks, hstandIn, -⟩ := @Mirrors.relocated tree t { t with
    source := second
    table := t.table.relocate (pathOf source) (pathOf (target ++ [newName]))
    roots } _ _ _ _ hwf h hapart hmove hold hshort hsource htarget hroots hsound' hsame rfl
  have hnot : roots.isRoot (pathOf (target ++ [newName])) = false :=
    Roots.isRoot_eq_false_of_free h.roots (by simp [hroots]) hwf hplace' hmove.free
  exact drains_selfMoved hwf' (htracks.of_same hsound' rfl rfl) hstandIn hroots hafter (hsame ▸
    hlive) hnot hsound' hqueue' rfl h.draining

/-- The halves of a rename meet, and the entries move along. -/
theorem drains_renamed (hwf : tree.WellFormed) (h : Mirrors tree t) (hapart : t.roots.Apart)
    (hmove : Movable tree (parent ++ [name]) target newName directory)
    (hold : ∀ location directory, tree.get? location = some (.directory directory) →
      IsShort location)
    (hshort : ∀ location directory,
      (tree.relocate (parent ++ [name]) (target ++ [newName])).get? location =
        some (.directory directory) →
        IsShort location)
    (hrefused : t.source.refused = [])
    (hsource : t.roots.Reach (pathOf (parent ++ [name]))) (htarget : t.roots.Reach (pathOf target))
    {left entered : WatchId} {cookie : Nat} (hleft : ⟨left, pathOf parent⟩ ∈ t.table.entries)
    (hentered : ⟨entered, pathOf target⟩ ∈ t.table.entries)
    (hentry : ⟨id, pathOf (parent ++ [name])⟩ ∈ t.table.entries)
    (hlive : (id, directory) ∈ t.source.live) :
    Drains (tree.relocate (parent ++ [name]) (target ++ [newName]))
      (Follows (tree.relocate (parent ++ [name]) (target ++ [newName])) t (some (parent ++ [name])))
      (t.queued [⟨left, .movedFrom, true, some cookie, some name⟩,
        ⟨entered, .movedTo, true, some cookie, some newName⟩, .onWatch id .moveSelf]) := by
  have hplace := hwf.isPlace hmove.get
  apply h.drains_queued (by simp)
  intro now first hsound hkept hqueue _ hrefused'
  have htaken := @Tracks.of_same _ t { t with source := first } _ h.tracks hsound hkept rfl
  refine Ends.imp (ends_handle_movedFrom h.departures (by simp [h.draining]) (htaken.aligned hwf)
    hleft) ?_
  rintro _ u ⟨counts, rfl⟩
  rw [child_pathOf hplace.left hplace.last]
  exact drains_met hwf h hapart hmove hold hshort hsource htarget hentered hentry hlive hsound
    hkept hqueue (hrefused'.trans hrefused) counts

/-- A root that arrives in a watched directory becomes one of its entries. -/
theorem drains_movedRoot (hwf : tree.WellFormed) (h : Mirrors tree t) (hapart : t.roots.Apart)
    (hmove : Movable tree source target newName directory)
    (hold : ∀ location directory, tree.get? location = some (.directory directory) →
      IsShort location)
    (hshort : ∀ location directory,
      (tree.relocate source (target ++ [newName])).get? location = some (.directory directory) →
        IsShort location)
    (hfree : ¬ Obstructed (tree.relocate source (target ++ [newName])) t)
    (hsource : t.roots.Reach (pathOf source)) (htarget : t.roots.Reach (pathOf target))
    {entered : WatchId} {cookie : Nat} (hentered : ⟨entered, pathOf target⟩ ∈ t.table.entries)
    (hentry : ⟨id, pathOf source⟩ ∈ t.table.entries) (hlive : (id, directory) ∈ t.source.live) :
    Drains (tree.relocate source (target ++ [newName]))
      (Follows (tree.relocate source (target ++ [newName])) t (some source))
      (t.queued [⟨entered, .movedTo, true, some cookie, some newName⟩, .onWatch id .moveSelf]) := by
  have hwf' := hmove.wellFormed hwf
  have hplace := hwf.isPlace hmove.get
  have hafter := hmove.get_target hwf
  have hplace' := hwf'.isPlace hafter
  have hretired := hapart.eraseP_live h.roots hwf hplace
  have hdiffer : (pathOf source).same (pathOf (target ++ [newName])) = false := by
    refine Bool.eq_false_iff.mpr fun hsame => hmove.not_inside ?_
    exact (same_pathOf_iff hplace hplace').mp hsame ▸ List.prefix_rfl
  apply h.drains_queued (by simp)
  intro now first hsound hkept hqueue _ hrefused
  have htaken := @Tracks.of_same _ t { t with source := first } _ h.tracks hsound hkept rfl
  have hrelocated {roots : Roots} (counts : Counts)
      (hroots : roots.live = t.roots.live.filter fun root => root.path ≠ pathOf source) :=
    @Mirrors.relocated tree t { t with
      source := first
      table := t.table.relocate (pathOf source) (pathOf (target ++ [newName]))
      roots, counts } _ _ _ _ hwf h hapart hmove hold hshort hsource htarget hroots hsound hkept rfl
  have haligned := (hrelocated t.counts ((Roots.live_retire _ _).trans hretired)).1.aligned hwf'
  have hfree' : ¬ Obstructed (tree.relocate source (target ++ [newName])) { t with
      source := first } := by
    simpa only [Obstructed, hrefused] using hfree
  refine Ends.imp (ends_handle_movedRoot hwf' h.departures (by simp [h.draining])
    (htaken.aligned hwf) hentered (hshort _ _ hafter) hafter (hkept ▸ hlive) hentry hdiffer
    (haligned.of_same rfl rfl) hfree') ?_
  rintro _ u ⟨roots, counts, n, hroots, haside, huroots, hgrown⟩
  replace hroots := hroots.trans hretired
  obtain ⟨htracks, hstandIn, hreached⟩ := hrelocated counts hroots
  have hnot : u.roots.isRoot (pathOf (target ++ [newName])) = false :=
    Roots.isRoot_eq_false_of_free h.roots (by simp [huroots, hroots]) hwf hplace' hmove.free
  exact drains_selfMoved hwf' (htracks.of_covered hwf' hstandIn hplace' hreached huroots hgrown)
    (huroots ▸ hstandIn) (huroots ▸ hroots) hafter (hgrown.live (hkept ▸ hlive)) hnot
    hgrown.aligned.sound (hgrown.queue.trans hqueue) (haside.departures.trans h.departures)
    (haside.draining.trans h.draining)

end Reached

section Unreached

theorem foldl_eraseP_of_apart {dropped : List Entry} {live : List Root}
    (h : ∀ entry ∈ dropped, ∀ root ∈ live, root.path.same entry.path = false) :
    dropped.foldl (fun live entry => live.eraseP (·.path.same entry.path)) live = live := by
  induction dropped with
  | nil => rfl
  | cons entry rest ih =>
    rw [List.foldl_cons, List.eraseP_of_forall_not fun root hroot => by simp [h entry (by simp)
      root hroot]]
    exact ih fun other hmem => h other (by simp [hmem])

theorem stand_of_unreached (hwf : tree.WellFormed) (h : Mirrors tree t)
    (hmove : Movable tree source target name directory) (htarget : ¬ t.roots.Reach (pathOf target))
    {other : DirectoryId} (hreach : t.roots.Reach (pathOf location))
    (hnot : ¬ source <+: location) :
    (tree.relocate source (target ++ [name])).get? location = some (.directory other) ↔
      tree.get? location = some (.directory other) := by
  have hout (hplace : IsPlace location) : ¬ target ++ [name] <+: location := fun hbelow =>
    htarget (reach_parent_of_free h.roots hwf hmove.free hbelow hplace hreach)
  constructor
  · intro hget
    rwa [← hmove.get_elsewhere hwf hnot (hout ((hmove.wellFormed hwf).isPlace hget))]
  · intro hget
    rwa [hmove.get_elsewhere hwf hnot (hout (hwf.isPlace hget))]

theorem live_of_givesUp (hwf : tree.WellFormed) (h : Mirrors tree t) (hapart : t.roots.Apart)
    (hplace : IsPlace source) (hsource : t.roots.Reach (pathOf source)) {dropped : List Entry}
    (hgivesUp : GivesUp v dropped u)
    (hmem : ∀ entry ∈ dropped, entry ∈ t.table.entries ∧ entry.path.isBelow (pathOf source) = true)
    (hroots : v.roots.live = t.roots.live.filter fun root => root.path ≠ pathOf source) :
    u.roots.live = t.roots.live.filter fun root => root.path ≠ pathOf source := by
  rw [hgivesUp.roots, foldl_eraseP_of_apart, hroots]
  intro entry hentry root hroot
  rw [hroots, List.mem_filter, decide_eq_true_iff] at hroot
  obtain ⟨hold, hbelow⟩ := hmem entry hentry
  obtain ⟨place, other, hpath, -, hget, -⟩ := h.tracks.entry hold
  obtain ⟨r, _, hr, hgetRoot⟩ := h.roots root hroot.1
  refine Bool.eq_false_iff.mpr fun hsame => hroot.2 ?_
  apply hapart.path_eq h.roots hwf hplace hsource hroot.1
  rw [hr, hpath, same_pathOf_iff (hwf.isPlace hgetRoot) (hwf.isPlace hget)] at hsame
  rwa [hr, hsame, ← hpath]

theorem drains_givenUp (hwf : tree.WellFormed) (h : Mirrors tree t) (hapart : t.roots.Apart)
    (hmove : Movable tree source target name directory) (hsource : t.roots.Reach (pathOf source))
    (htarget : ¬ t.roots.Reach (pathOf target)) {dropped : List Entry}
    (hgivesUp : GivesUp v dropped u)
    (hmem : ∀ entry, entry ∈ dropped ↔
      entry ∈ v.table.entries ∧ entry.path.isBelow (pathOf source) = true)
        (htable : v.table = t.table) (hlive : v.source.live = t.source.live)
        (hqueue : v.source.queue = [])
    (hnextId : v.source.nextId = t.source.nextId) (hquiet : v.departures = .empty)
    (hdraining : v.draining = [])
    (hroots : v.roots.live = t.roots.live.filter fun root => root.path ≠ pathOf source)
    (counts : Counts) :
    Drains (tree.relocate source (target ++ [name]))
      (Follows (tree.relocate source (target ++ [name])) t (some source)) { u with counts } := by
  have hplace := hwf.isPlace hmove.get
  have hperm := hgivesUp.entries
  rw [htable] at hperm
  have hids := (hperm.map (·.id)).nodup_iff.mp h.tracks.ids
  rw [List.map_append, List.nodup_append] at hids
  have huroots := live_of_givesUp hwf h hapart hplace hsource hgivesUp
    (fun entry hentry => htable ▸ (hmem entry).mp hentry) hroots
  refine .of_ends (dropped.map (·.id)) ?_ (hgivesUp.departures.trans hquiet) ?_ ?_ ?_
    fun last counts' hlast hempty hlastId => ?_
  · simp [hgivesUp.queue, hqueue, List.map_map, Function.comp_def]
  · intro gone hgone entry hentry heq
    exact hids.2.2 gone hgone entry.id (List.mem_map.mpr ⟨entry, hentry, rfl⟩) heq.symm
  · intro gone hgone watch hwatch heq
    rw [show ({ u with counts } : Tracker).source = u.source from rfl, hgivesUp.live,
      List.mem_filter, heq] at hwatch
    simp [hgone] at hwatch
  · simp [hgivesUp.draining, hdraining]
  · refine h.vacated hwf (hmove.wellFormed hwf) hplace (fun location => hmove.get_below hwf)
      (fun location other => stand_of_unreached hwf h hmove htarget)
      (fun root => hapart.path_eq h.roots hwf hplace hsource) dropped (fun entry hentry => ?_)
      hperm ?_ ?_ huroots hempty (hgivesUp.departures.trans hquiet) rfl
    · rw [hmem, htable]
      exact and_iff_right hentry
    · exact hlast.trans (hgivesUp.live.trans (by rw [hlive]))
    · exact hlastId.trans (hgivesUp.nextId.trans hnextId)

/-- The first half finds no second, and the entries are given up. -/
theorem drains_departed (hwf : tree.WellFormed) (h : Mirrors tree t) (hapart : t.roots.Apart)
    (hmove : Movable tree (parent ++ [name]) target newName directory)
    (hparent : t.roots.Reach (pathOf parent)) (hsource : t.roots.Reach (pathOf (parent ++ [name])))
    (htarget : ¬ t.roots.Reach (pathOf target)) {left : WatchId} {cookie : Nat}
    (hleft : ⟨left, pathOf parent⟩ ∈ t.table.entries)
    (hentry : ⟨id, pathOf (parent ++ [name])⟩ ∈ t.table.entries) :
    Drains (tree.relocate (parent ++ [name]) (target ++ [newName]))
      (Follows (tree.relocate (parent ++ [name]) (target ++ [newName])) t (some (parent ++ [name])))
      (t.queued [⟨left, .movedFrom, true, some cookie, some name⟩, .onWatch id .moveSelf]) := by
  have hplace := hwf.isPlace hmove.get
  apply h.drains_queued (by simp)
  intro now first hsound₁ hlive₁ hqueue₁ hnextId₁ _
  have htaken := @Tracks.of_same _ t { t with source := first } _ h.tracks hsound₁ hlive₁ rfl
  refine Ends.imp (ends_handle_movedFrom h.departures (by simp [h.draining]) (htaken.aligned hwf)
    hleft) ?_
  intro _ u hu
  obtain ⟨counts, rfl⟩ := hu
  rw [child_pathOf hplace.left hplace.last]
  refine .of_kept hqueue₁ (by simp [Event.onWatch]) hsound₁
    fun now' second hsound₂ hlive₂ hqueue₂ hnextId₂ _ => ?_
  set v : Tracker := { t with
    source := second, departures := .empty, counts :=
      { counts with events := counts.events + 1 } } with hv
  have hheld : Tracks tree (fun location => t.roots.Reach (pathOf location)) v :=
    h.tracks.of_same hsound₂ (hlive₂.trans hlive₁) rfl
  obtain ⟨dropped, hgivesUp, hmem⟩ := @exists_givesUp v (pathOf (parent ++ [name])) hheld.ids
    (fun entry hentry => Source.isLive_iff.mpr ((hheld.aligned hwf).live entry hentry))
    (by simp [hv, h.draining])
  have hstale : id ∈ (v.withoutSubtree (pathOf (parent ++ [name]))).draining := by
    rw [hgivesUp.draining, List.mem_append]
    exact .inr (List.mem_map.mpr ⟨_, (hmem _).mpr ⟨hentry, Path.isBelow_refl _⟩, rfl⟩)
  refine Ends.imp (ends_handle_of_departed rfl hstale) ?_
  intro _ u hu
  obtain ⟨counts', rfl⟩ := hu
  refine drains_givenUp hwf h hapart hmove hsource htarget hgivesUp hmem rfl
    (hlive₂.trans hlive₁) hqueue₂ (hnextId₂.trans hnextId₁) rfl h.draining ?_ counts'
  refine (List.filter_eq_self.mpr fun root hroot => ?_).symm
  exact decide_eq_true (hapart.path_ne h.roots hwf hplace hparent hroot)

/-- A root that is moved out of reach is given up at once. -/
theorem drains_rootDeparted (hwf : tree.WellFormed) (h : Mirrors tree t) (hapart : t.roots.Apart)
    (hmove : Movable tree source target newName directory) (hsource : t.roots.Reach (pathOf source))
    (htarget : ¬ t.roots.Reach (pathOf target)) (hroot : t.roots.isRoot (pathOf source) = true)
    (hentry : ⟨id, pathOf source⟩ ∈ t.table.entries) :
    Drains (tree.relocate source (target ++ [newName]))
      (Follows (tree.relocate source (target ++ [newName])) t (some source))
      (t.queued [.onWatch id .moveSelf]) := by
  have hplace := hwf.isPlace hmove.get
  apply h.drains_queued (by simp [Event.onWatch])
  intro now first hsound hlive hqueue hnextId _
  have htaken := @Tracks.of_same _ t { t with source := first } _ h.tracks hsound hlive rfl
  refine Ends.imp (ends_handle_moveSelf h.departures (by simp [h.draining]) (htaken.aligned hwf)
    hentry) ?_
  intro _ u hu
  rw [if_pos hroot] at hu
  obtain ⟨roots, counts, hv, hroots⟩ :=
    exists_withoutRoot (counted { t with source := first }) (pathOf source)
  rw [hv] at hu
  set v : Tracker := { counted { t with source := first } with roots, counts }
  have hheld : Tracks tree (fun location => t.roots.Reach (pathOf location)) v :=
    h.tracks.of_same hsound hlive rfl
  obtain ⟨dropped, hgivesUp, hmem⟩ := @exists_givesUp v (pathOf source) hheld.ids
    (fun entry hentry => Source.isLive_iff.mpr ((hheld.aligned hwf).live entry hentry))
    (fun entry _ => by rw [show v.draining = [] from h.draining]; exact List.not_mem_nil)
  rw [← hu] at hgivesUp
  exact drains_givenUp hwf h hapart hmove hsource htarget hgivesUp hmem rfl hlive hqueue hnextId
    h.departures h.draining (hroots.trans (hapart.eraseP_live h.roots hwf hplace)) u.counts

end Unreached

/-- A directory that no root reached comes to stand where one does. -/
theorem drains_arrived (hwf : tree.WellFormed) (h : Mirrors tree t)
    (hmove : Movable tree source target newName directory)
    (hfree : ¬ Obstructed (tree.relocate source (target ++ [newName])) t)
    (hsource : ¬ t.roots.Reach (pathOf source))
    (hnone : ∀ root ∈ t.roots.live, root.path.isBelow (pathOf source) = false)
    (htarget : t.roots.Reach (pathOf target)) {entered : WatchId} {cookie : Nat}
    (hentered : ⟨entered, pathOf target⟩ ∈ t.table.entries) :
    Drains (tree.relocate source (target ++ [newName]))
      (Follows (tree.relocate source (target ++ [newName])) t (some source))
      (t.queued [⟨entered, .movedTo, true, some cookie, some newName⟩]) := by
  have hwf' := hmove.wellFormed hwf
  have hplace := hwf.isPlace hmove.get
  have hunreached : ∀ {location}, IsPlace location → t.roots.Reach (pathOf location) →
      ¬ source <+: location := fun hlocation hreach hbelow =>
    not_reach_below h.roots hwf hlocation hplace hsource hnone hbelow hreach
  have hstandIn : t.roots.StandIn (tree.relocate source (target ++ [newName])) := by
    intro root hroot
    obtain ⟨r, other, hr, hget⟩ := h.roots root hroot
    have hlocation := hwf.isPlace hget
    refine ⟨r, other, hr, ?_⟩
    rw [hmove.get_elsewhere hwf (hunreached hlocation ?_) (hwf.not_prefix_of_free hmove.free hget),
      hget]
    exact hr ▸ Roots.reach_of_mem hroot
  have houtside := @Mirrors.outside tree (tree.relocate source (target ++ [newName])) t
    (target ++ [newName]) hwf h hmove.free fun location other hreach hnot => by
      constructor
      · intro hget
        rwa [← hmove.get_elsewhere hwf (hunreached (hwf'.isPlace hget) hreach) hnot]
      · intro hget
        rwa [hmove.get_elsewhere hwf (hunreached (hwf.isPlace hget) hreach) hnot]
  refine (drains_of_arrival hwf' h (.inr rfl) rfl rfl hstandIn houtside hentered
    (hmove.get_target hwf) htarget hfree).mono fun u hu => ⟨hu.1, ?_⟩
  rw [hu.2, eq_comm, List.filter_eq_self]
  intro root hroot
  have hbelow := hnone root hroot
  apply decide_eq_true
  intro heq
  rw [heq, Path.isBelow_refl _] at hbelow
  exact Bool.false_ne_true hbelow.symm

theorem isRoot_of_reach (hwf : tree.WellFormed) (hroots : t.roots.StandIn tree)
    (hplace : IsPlace (parent ++ [name])) (hreach : t.roots.Reach (pathOf (parent ++ [name])))
    (hparent : ¬ t.roots.Reach (pathOf parent)) :
    t.roots.isRoot (pathOf (parent ++ [name])) = true := by
  obtain ⟨root, hroot, r, _, hr, hget, hbelow⟩ := (reach_iff hroots hwf hplace).mp hreach
  rcases List.prefix_concat_iff.mp hbelow with rfl | hbelow
  · exact Roots.isRoot_iff.mpr ⟨root, hroot, hr ▸ (same_pathOf_iff hplace hplace).mpr rfl⟩
  · exact absurd ((reach_iff hroots hwf hplace.left).mpr ⟨root, hroot, r, _, hr, hget,
      hbelow⟩) hparent

/-- What is moved from where no live root reaches is taken in if it comes below one, and nothing is
reported of where it left. -/
theorem drains_movedFromOutside (hwf : tree.WellFormed) (h : Mirrors tree t)
    (hmove : Movable tree (parent ++ [name]) target newName directory)
    (hold : ∀ location directory, tree.get? location = some (.directory directory) →
      IsShort location)
    (hfree : ¬ Obstructed (tree.relocate (parent ++ [name]) (target ++ [newName])) t)
    (hsource : ¬ t.roots.Reach (pathOf (parent ++ [name])))
    (hroots : ∀ root ∈ t.roots.live, root.path.isBelow (pathOf (parent ++ [name])) = false)
    (cookie : Nat) :
    Drains (tree.relocate (parent ++ [name]) (target ++ [newName]))
      (Follows (tree.relocate (parent ++ [name]) (target ++ [newName])) t (some (parent ++ [name])))
      (t.queued
        (reported t.source tree parent (fun id => ⟨id, .movedFrom, true, some cookie, some name⟩) ++
          reported t.source tree target (fun id => ⟨id, .movedTo, true, some cookie,
            some newName⟩) ++
          reported t.source tree (parent ++ [name]) (.onWatch · .moveSelf))) := by
  have hplace := hwf.isPlace hmove.get
  obtain ⟨above, habove⟩ := hwf.parent hmove.get
  obtain ⟨holder, hholder⟩ := hmove.holder
  have hparent : ¬ t.roots.Reach (pathOf parent) := fun hreach => hsource
    (reach_below h.roots hwf hplace hreach hplace.left (List.prefix_append _ _))
  rw [reported_of_not_reach hwf h.tracks habove hparent,
    reported_of_not_reach hwf h.tracks hmove.get hsource]
  by_cases htarget : t.roots.Reach (pathOf target)
  · obtain ⟨entered, hentered, -, hto⟩ :=
      exists_reported hwf h.tracks (hold _ _ hholder) hholder htarget
    rw [hto]
    exact drains_arrived hwf h hmove hfree hsource hroots htarget hentered
  · rw [reported_of_not_reach hwf h.tracks hholder htarget]
    exact drains_unreached hwf (hmove.wellFormed hwf) h hmove.get
      (fun location => hmove.get_below hwf)
      (fun location other => stand_of_unreached hwf h hmove htarget) hsource hroots

theorem drains_moved (hwf : tree.WellFormed) (h : Mirrors tree t) (hapart : t.roots.Apart)
    (hmove : Movable tree (parent ++ [name]) target newName directory)
    (hold : ∀ location directory, tree.get? location = some (.directory directory) →
      IsShort location)
    (hshort : ∀ location directory,
      (tree.relocate (parent ++ [name]) (target ++ [newName])).get? location =
        some (.directory directory) →
        IsShort location)
    (hfree : ¬ Obstructed (tree.relocate (parent ++ [name]) (target ++ [newName])) t)
    (habove : t.roots.Reach (pathOf (parent ++ [name])) ∨
      ∀ root ∈ t.roots.live, root.path.isBelow (pathOf (parent ++ [name])) = false) (cookie : Nat) :
    Drains (tree.relocate (parent ++ [name]) (target ++ [newName]))
      (Follows (tree.relocate (parent ++ [name]) (target ++ [newName])) t (some (parent ++ [name])))
      (t.queued
        (reported t.source tree parent (fun id => ⟨id, .movedFrom, true, some cookie, some name⟩) ++
          reported t.source tree target (fun id => ⟨id, .movedTo, true, some cookie,
            some newName⟩) ++
          reported t.source tree (parent ++ [name]) (.onWatch · .moveSelf))) := by
  have hplace := hwf.isPlace hmove.get
  obtain ⟨above, habove'⟩ := hwf.parent hmove.get
  obtain ⟨holder, hholder⟩ := hmove.holder
  have hrefused : t.source.refused = [] := by_contra fun hne => hfree (.inl hne)
  by_cases hsource : t.roots.Reach (pathOf (parent ++ [name]))
  · obtain ⟨id, hentry, hlive, hself⟩ :=
      exists_reported hwf h.tracks (hold _ _ hmove.get) hmove.get hsource
    rw [hself]
    by_cases hparent : t.roots.Reach (pathOf parent)
    · obtain ⟨left, hleft, -, hfrom⟩ :=
        exists_reported hwf h.tracks (hold _ _ habove') habove' hparent
      rw [hfrom]
      by_cases htarget : t.roots.Reach (pathOf target)
      · obtain ⟨entered, hentered, -, hto⟩ :=
          exists_reported hwf h.tracks (hold _ _ hholder) hholder htarget
        rw [hto]
        exact drains_renamed hwf h hapart hmove hold hshort hrefused hsource htarget hleft hentered
          hentry hlive
      · rw [reported_of_not_reach hwf h.tracks hholder htarget]
        exact drains_departed hwf h hapart hmove hparent hsource htarget hleft hentry
    · rw [reported_of_not_reach hwf h.tracks habove' hparent]
      by_cases htarget : t.roots.Reach (pathOf target)
      · obtain ⟨entered, hentered, -, hto⟩ :=
          exists_reported hwf h.tracks (hold _ _ hholder) hholder htarget
        rw [hto]
        exact drains_movedRoot hwf h hapart hmove hold hshort hfree hsource htarget hentered
          hentry hlive
      · rw [reported_of_not_reach hwf h.tracks hholder htarget]
        exact drains_rootDeparted hwf h hapart hmove hsource htarget
          (isRoot_of_reach hwf h.roots hplace hsource hparent) hentry
  · exact drains_movedFromOutside hwf h hmove hold hfree hsource (habove.resolve_left hsource) cookie

/-- Whatever changes, handling what is reported of it ends in a mirror of the tree as it stands
then, and the only root retired is the one that left its place. A directory without an entry may
hold no root when it goes away. -/
theorem mirror_follows_every_change (hwf : tree.WellFormed) (h : Mirrors tree t)
    (hapart : t.roots.Apart)
    (hold : ∀ location directory, tree.get? location = some (.directory directory) →
      IsShort location)
    (hshort : ∀ location directory, next.get? location = some (.directory directory) →
      IsShort location)
    (hfree : ¬ Obstructed next t) {events : List Event} {vacated : Option Location}
    (hchange : Alters tree t.source next events vacated)
    (hvacated : ∀ location, vacated = some location → t.roots.Reach (pathOf location) ∨
      ∀ root ∈ t.roots.live, root.path.isBelow (pathOf location) = false) :
    Drains next (Follows next t vacated) (t.queued events) := by
  cases hchange with
  | made hparent hname hfreeName => exact drains_made hwf h hold hparent hname hfreeName hfree
  | removed hne hget hempty =>
    exact drains_removed hwf h hapart hold hne hget hempty (hvacated _ rfl)
  | @moved parent target name newName directory holder cookie hget htarget hout hname hfreeName =>
    have hmove : Movable tree (parent ++ [name]) target newName directory :=
      ⟨hget, by simp, ⟨holder, htarget⟩, hout, hname, hfreeName⟩
    exact drains_moved hwf h hapart hmove hold hshort hfree (hvacated _ rfl) cookie

/-- A directory below a root gets another name. -/
theorem mirror_follows_every_change_of_rename :
    let tree := (FileTree.empty.putDirectory [[114]]).putDirectory [[114], [97]]
    let next := tree.relocate [[114], [97]] [[114], [98]]
    let t := (cover ⟨tree, 0⟩
      (ofRoots .empty ⟨[some ⟨pathOf [[114]], 1⟩], 0⟩ ⟨true, .rescan⟩)).state
    let events :=
      reported t.source tree [[114]] (fun id => ⟨id, .movedFrom, true, some 7, some [97]⟩) ++
        reported t.source tree [[114]] (fun id => ⟨id, .movedTo, true, some 7, some [98]⟩) ++
        reported t.source tree [[114], [97]] (.onWatch · .moveSelf)
    events = [⟨⟨1⟩, .movedFrom, true, some 7, some [97]⟩, ⟨⟨1⟩, .movedTo, true, some 7, some [98]⟩,
      .onWatch ⟨2⟩ .moveSelf] ∧
    Drains next (Follows next t (some [[114], [97]])) (t.queued events) := by
  intro tree next t events
  have hfirst : (FileTree.empty.putDirectory [[114]]).WellFormed :=
    WellFormed.empty.putDirectory (FileTree.get?_nil _) (by decide) (by decide)
  have hparent : (FileTree.empty.putDirectory [[114]]).get? [[114]] = some (.directory 1) := by
    decide
  have hwf : tree.WellFormed := hfirst.putDirectory hparent (by decide) (by decide)
  have houter : tree.get? [[114]] = some (.directory 1) := by decide
  have hinner : tree.get? ([[114]] ++ [[97]]) = some (.directory 2) := by decide
  have hwf' : next.WellFormed := hwf.relocate (by simp) houter (by decide) (by decide) (by decide)
  have hfollows (t : Tracker) (h : Mirrors tree t) (hlive : t.roots.live = [⟨pathOf [[114]], 1⟩])
      (hfree : ¬ Obstructed next t) :=
    mirror_follows_every_change hwf h (by simp [Roots.Apart, hlive])
      (fun location directory => hwf.isShort_of_objects (by decide +kernel))
      (fun location directory => hwf'.isShort_of_objects (by decide +kernel)) hfree
      (@Alters.moved tree t.source [[114]] [[114]] [97] [98] 2 1 7 hinner houter (by decide)
        (by decide) (by decide))
      (by
        rintro _ ⟨rfl⟩
        exact .inl ⟨_, hlive ▸ List.mem_singleton_self _, by decide +kernel⟩)
  have hroots : ∀ root ∈ (ofRoots .empty ⟨[some ⟨pathOf [[114]], 1⟩], 0⟩ ⟨true,
    .rescan⟩).roots.live,
      root.AvoidsLinks tree := by
    intro root hroot
    simp only [ofRoots, Roots.live, List.filterMap_cons, id_eq, List.filterMap_nil,
      List.mem_singleton] at hroot
    exact ⟨[[114]], hroot ▸ rfl, hwf.isPlace houter, hwf.linkFree houter⟩
  have hbare : (ofRoots .empty ⟨[some ⟨pathOf [[114]], 1⟩], 0⟩ ⟨true, .rescan⟩).Bare :=
    ⟨rfl, rfl, rfl, rfl, rfl⟩
  have hresult : (cover ⟨tree, 0⟩
      (ofRoots .empty ⟨[some ⟨pathOf [[114]], 1⟩], 0⟩ ⟨true, .rescan⟩)).result = .ok 2 := by
    decide +kernel
  exact ⟨by decide +kernel, hfollows t (hbare.mirrors_of_cover hwf hroots hresult)
    (by decide +kernel) (by unfold Obstructed; decide +kernel)⟩

end Tracker

end TreeWatch
