import TreeWatch.Proofs.FileTree.Moves
import TreeWatch.Proofs.Tracker.Growth

/-!
# Tables that say what stands

A tracker tracks the directories at some places if its table has an entry for exactly these, each
under the path of its place and with the live watch of that very directory, and its source has no
other watch. Covering more places tracks more.
-/

namespace TreeWatch

/-- A path is at or below that of a live root. -/
def Roots.Reach (roots : Roots) (path : Path) : Prop :=
  ∃ root ∈ roots.live, path.isBelow root.path = true

theorem Roots.reach_of_mem {roots : Roots} {root : Root} (hroot : root ∈ roots.live) :
    roots.Reach root.path := ⟨root, hroot, Path.isBelow_refl _⟩

namespace Tracker

open FileTree

variable {tree : FileTree} {t u : Tracker} {held region : Location → Prop} {n : Nat}

/-- The table and the live watches are those of the directories at the places that are held. -/
structure Tracks (tree : FileTree) (held : Location → Prop) (t : Tracker) : Prop where
  sound : t.source.Sound
  ids : (t.table.entries.map (·.id)).Nodup
  entry : ∀ {id path}, ⟨id, path⟩ ∈ t.table.entries → ∃ location directory, path = pathOf location ∧
    IsShort location ∧ tree.get? location = some (.directory directory) ∧ held location ∧
    (id, directory) ∈ t.source.live
  covered : ∀ {location directory}, held location → IsShort location →
    tree.get? location = some (.directory directory) → ∃ id, ⟨id, pathOf location⟩ ∈ t.table.entries
  watch : ∀ {id directory}, (id, directory) ∈ t.source.live → ∃ location,
    ⟨id, pathOf location⟩ ∈ t.table.entries ∧ tree.get? location = some (.directory directory)

namespace Tracks

theorem aligned (hwf : tree.WellFormed) (h : Tracks tree held t) : Aligned tree t where
  sound := h.sound
  ids := h.ids
  live entry hentry := by
    obtain ⟨_, directory, -, -, -, -, hlive⟩ := h.entry hentry
    exact ⟨directory, hlive⟩
  known watch hwatch := by
    obtain ⟨location, -, hget⟩ := h.watch hwatch
    exact hwf.known hget
  placed hwatch hget := by
    obtain ⟨place, hentry, hplace⟩ := h.watch hwatch
    rwa [hwf.unique hget hplace]

theorem watches_iff (hwf : tree.WellFormed) (h : Tracks tree held t) {id : WatchId}
    {directory : DirectoryId} : (id, directory) ∈ t.source.live ↔ ∃ location,
      ⟨id, pathOf location⟩ ∈ t.table.entries ∧
      tree.get? location = some (.directory directory) := by
  refine ⟨h.watch, ?_⟩
  rintro ⟨location, hentry, hget⟩
  obtain ⟨place, other, hpath, -, hplace, -, hlive⟩ := h.entry hentry
  obtain rfl := (pathOf_inj (hwf.isPlace hget) (hwf.isPlace hplace)).mp hpath
  obtain rfl := eq_of_get?_directory hget hplace
  exact hlive

theorem held_iff (hwf : tree.WellFormed) (h : Tracks tree held t) {location : Location}
    (hplace : IsPlace location) : (∃ id, ⟨id, pathOf location⟩ ∈ t.table.entries) ↔
      ∃ directory, IsShort location ∧ tree.get? location = some (.directory directory) ∧
        held location := by
  constructor
  · rintro ⟨id, hentry⟩
    obtain ⟨place, directory, hpath, hshort, hget, hheld, -⟩ := h.entry hentry
    obtain rfl := (pathOf_inj hplace (hwf.isPlace hget)).mp hpath
    exact ⟨directory, hshort, hget, hheld⟩
  · rintro ⟨directory, hshort, hget, hheld⟩
    exact h.covered hheld hshort hget

/-- No two entries share a number or a path. -/
theorem distinct (hwf : tree.WellFormed) (h : Tracks tree held t) :
    t.table.entries.Pairwise fun a b => a.id ≠ b.id ∧ a.path.same b.path = false := by
  have hids := h.ids
  rw [List.Nodup, List.pairwise_map] at hids
  refine hids.imp_of_mem fun {a b} ha hb hne => ⟨hne, Bool.eq_false_iff.mpr fun hsame => hne ?_⟩
  obtain ⟨place, directory, hpath, -, hget, -, hlive⟩ := h.entry ha
  obtain ⟨place', directory', hpath', -, hget', -, hlive'⟩ := h.entry hb
  rw [hpath, hpath', same_pathOf_iff (hwf.isPlace hget) (hwf.isPlace hget')] at hsame
  rw [hsame] at hget
  obtain rfl := eq_of_get?_directory hget' hget
  exact h.sound.eq_of_directory hlive hlive'

theorem length_live (hwf : tree.WellFormed) (h : Tracks tree held t) :
    t.source.live.length = t.table.entries.length := by
  have hperm : (t.source.live.map (·.1)).Perm (t.table.entries.map (·.id)) := by
    rw [List.perm_ext_iff_of_nodup h.sound.ids h.ids]
    intro id
    simp only [List.mem_map]
    constructor
    · rintro ⟨⟨id, directory⟩, hmem, rfl⟩
      obtain ⟨location, hentry, -⟩ := h.watch hmem
      exact ⟨_, hentry, rfl⟩
    · rintro ⟨entry, hentry, rfl⟩
      obtain ⟨directory, hmem⟩ := (h.aligned hwf).live entry hentry
      exact ⟨_, hmem, rfl⟩
  simpa using hperm.length_eq

theorem congr (h : Tracks tree held t) (hheld : ∀ location directory, IsShort location →
    tree.get? location = some (.directory directory) → (held location ↔ region location)) :
    Tracks tree region t where
  sound := h.sound
  ids := h.ids
  entry hentry := by
    obtain ⟨location, directory, hpath, hshort, hget, hmem, hlive⟩ := h.entry hentry
    exact ⟨location, directory, hpath, hshort, hget, (hheld _ _ hshort hget).mp hmem, hlive⟩
  covered hmem hshort hget := h.covered ((hheld _ _ hshort hget).mpr hmem) hshort hget
  watch := h.watch

theorem of_same (h : Tracks tree held t) (hsound : u.source.Sound)
    (hlive : u.source.live = t.source.live) (htable : u.table = t.table) : Tracks tree held u where
  sound := hsound
  ids := htable ▸ h.ids
  entry := by rw [hlive, htable]; exact h.entry
  covered := by rw [htable]; exact h.covered
  watch := by rw [hlive, htable]; exact h.watch

theorem grown (h : Tracks tree held t) (hgrown : Grown tree region t u n) :
    Tracks tree (fun location => held location ∨ region location) u where
  sound := hgrown.aligned.sound
  ids := hgrown.aligned.ids
  entry := by
    intro id path hentry
    rcases hgrown.newEntry _ hentry with hold |
      ⟨location, directory, hregion, hshort, hget, hpath, hlive, -⟩
    · obtain ⟨location, directory, hpath, hshort, hget, hheld, hlive⟩ := h.entry hold
      exact ⟨location, directory, hpath, hshort, hget, .inl hheld, hgrown.live hlive⟩
    · exact ⟨location, directory, hpath, hshort, hget, .inr hregion, hlive⟩
  covered := by
    rintro location directory (hheld | hregion) hshort hget
    · obtain ⟨id, hentry⟩ := h.covered hheld hshort hget
      exact ⟨id, hgrown.entries hentry⟩
    · obtain ⟨id, hlive⟩ := hgrown.covered hregion hshort hget
      exact ⟨id, hgrown.aligned.placed hlive hget⟩
  watch := by
    intro id directory hlive
    rcases hgrown.newWatch _ hlive with hold | ⟨location, -, -, hget, hentry⟩
    · obtain ⟨location, hentry, hget⟩ := h.watch hold
      exact ⟨location, hgrown.entries hentry, hget⟩
    · exact ⟨location, hentry, hget⟩

/-- What is held stands in another tree where it stood. -/
theorem transfer {next : FileTree} (h : Tracks tree held t) (hget : ∀ location directory,
    held location → (next.get? location = some (.directory directory) ↔
      tree.get? location = some (.directory directory))) : Tracks next held t where
  sound := h.sound
  ids := h.ids
  entry hentry := by
    obtain ⟨location, directory, hpath, hshort, hold, hheld, hlive⟩ := h.entry hentry
    exact ⟨location, directory, hpath, hshort, (hget _ _ hheld).mpr hold, hheld, hlive⟩
  covered hheld hshort hnew := h.covered hheld hshort ((hget _ _ hheld).mp hnew)
  watch hlive := by
    obtain ⟨location, hentry, hold⟩ := h.watch hlive
    obtain ⟨place, directory, hpath, -, hplace, hheld, hlive'⟩ := h.entry hentry
    obtain rfl := h.sound.eq_of_id hlive hlive'
    exact ⟨place, hpath ▸ hentry, (hget _ _ hheld).mpr hplace⟩

/-- Without the entries at and below a place and their watches, what is below is not held any
more. -/
theorem dropped (hwf : tree.WellFormed) (h : Tracks tree held t) {gone : Location}
    (hgone : IsPlace gone) {entries : List Entry}
    (hmem : ∀ entry ∈ t.table.entries, entry ∈ entries ↔ entry.path.isBelow (pathOf gone) = true)
    (hperm : t.table.entries.Perm (entries ++ u.table.entries))
    (hlive : u.source.live = t.source.live.filter fun watch =>
      !(entries.map (·.id)).contains watch.1)
    (hnextId : u.source.nextId = t.source.nextId) :
    Tracks tree (fun location => held location ∧ ¬ gone <+: location) u := by
  have hids : ((entries ++ u.table.entries).map (·.id)).Nodup := (hperm.map _).nodup_iff.mp h.ids
  rw [List.map_append, List.nodup_append] at hids
  have hold : ∀ {entry}, entry ∈ u.table.entries → entry ∈ t.table.entries :=
    fun hentry => hperm.mem_iff.mpr (List.mem_append_right _ hentry)
  have hkept : ∀ {location}, IsPlace location → ¬ gone <+: location → ∀ {id},
      ⟨id, pathOf location⟩ ∈ t.table.entries → ⟨id, pathOf location⟩ ∈ u.table.entries := by
    intro location hplace hnot id hentry
    refine (List.mem_append.mp (hperm.mem_iff.mp hentry)).resolve_left fun hdropped => hnot ?_
    exact (isBelow_pathOf_iff hplace hgone).mp ((hmem _ hentry).mp hdropped)
  have hsound : u.source.Sound := h.sound.of_sublist (hlive ▸ List.filter_sublist) hnextId
  have hunwatched : ∀ {entry}, entry ∈ u.table.entries → entry.id ∉ entries.map (·.id) :=
    fun hentry hid => hids.2.2 _ hid _ (List.mem_map.mpr ⟨_, hentry, rfl⟩) rfl
  refine ⟨hsound, hids.2.1, ?_, ?_, ?_⟩
  · intro id path hentry
    obtain ⟨location, directory, rfl, hshort, hget, hheld, hwatch⟩ := h.entry (hold hentry)
    refine ⟨location, directory, rfl, hshort, hget, ⟨hheld, fun hbelow => ?_⟩, ?_⟩
    · have hdropped := (hmem _ (hold hentry)).mpr
        ((isBelow_pathOf_iff (hwf.isPlace hget) hgone).mpr hbelow)
      exact hunwatched hentry (List.mem_map.mpr ⟨_, hdropped, rfl⟩)
    · rw [hlive]
      exact List.mem_filter.mpr ⟨hwatch, by simpa using hunwatched hentry⟩
  · rintro location directory ⟨hheld, hnot⟩ hshort hget
    obtain ⟨id, hentry⟩ := h.covered hheld hshort hget
    exact ⟨id, hkept (hwf.isPlace hget) hnot hentry⟩
  · intro id directory hwatch
    rw [hlive] at hwatch
    obtain ⟨hwatch, hnot⟩ := List.mem_filter.mp hwatch
    obtain ⟨location, hentry, hget⟩ := h.watch hwatch
    refine ⟨location, (List.mem_append.mp (hperm.mem_iff.mp hentry)).resolve_left fun hdropped =>
      ?_, hget⟩
    have hid : id ∈ entries.map (·.id) := List.mem_map.mpr ⟨_, hdropped, rfl⟩
    simp [hid] at hnot

theorem movedEntry_placeAfter {source target location : Location} {directory : DirectoryId}
    (hwf : tree.WellFormed) (hsource : source ≠ []) (hplace : IsPlace source)
    (htarget : IsPlace target) (hfree : tree.get? target = none)
    (hshort : ∀ location directory,
      (tree.relocate source target).get? location = some (.directory directory) → IsShort location)
    (id : WatchId) (hget : tree.get? location = some (.directory directory)) :
    WatchTable.movedEntry (pathOf source) (pathOf target) ⟨id, pathOf location⟩ =
      ⟨id, pathOf (placeAfter source target location)⟩ := by
  have hafter := hwf.get?_relocate_placeAfter hsource hfree hget
  by_cases hbelow : source <+: location
  · obtain ⟨more, rfl⟩ := hbelow
    have hmore := (hwf.isPlace hget).right
    rw [placeAfter_append] at hafter ⊢
    rw [WatchTable.movedEntry, WatchTable.moved?_pathOf hplace htarget hmore]
    simp only
    rw [bounded_pathOf (hshort _ _ hafter)]
  · rw [placeAfter_eq_self hbelow, WatchTable.movedEntry,
      WatchTable.moved?_pathOf_of_not_below hplace (hwf.isPlace hget) hbelow]

/-- Moving the entries of a subtree tracks the directories that were moved. -/
theorem moved {next : FileTree} {source target : Location} {held' : Location → Prop}
    (hwf : tree.WellFormed) (hnext : next = tree.relocate source target)
    (hsource : source ≠ []) (hplace : IsPlace source) (htarget : IsPlace target)
    (hfree : tree.get? target = none) (h : Tracks tree held t)
    (hold : ∀ location directory, tree.get? location = some (.directory directory) →
      IsShort location)
    (hshort : ∀ location directory, next.get? location = some (.directory directory) →
      IsShort location)
    (hheld : ∀ location directory, tree.get? location = some (.directory directory) →
      (held' (placeAfter source target location) ↔ held location))
    (hsound : u.source.Sound) (hlive : u.source.live = t.source.live)
    (htable : u.table.entries = t.table.entries.map
      (WatchTable.movedEntry (pathOf source) (pathOf target))) :
    Tracks next held' u := by
  subst hnext
  have hentry {location : Location} {directory : DirectoryId} (id : WatchId)
      (hget : tree.get? location = some (.directory directory)) :=
    movedEntry_placeAfter hwf hsource hplace htarget hfree hshort id hget
  have hnew {location : Location} {directory : DirectoryId}
      (hget : tree.get? location = some (.directory directory)) :=
    hwf.get?_relocate_placeAfter hsource hfree hget
  refine ⟨hsound, ?_, ?_, ?_, ?_⟩
  · rw [htable, List.map_map]
    have hid : (fun entry : Entry => entry.id) ∘
        WatchTable.movedEntry (pathOf source) (pathOf target) = fun entry => entry.id :=
      funext fun entry => WatchTable.movedEntry_id _ _ entry
    rw [hid]
    exact h.ids
  · intro id path hmem
    rw [htable] at hmem
    obtain ⟨⟨id', path'⟩, hmemOld, heq⟩ := List.mem_map.mp hmem
    obtain ⟨location, directory, rfl, -, hget, hheldOld, hwatch⟩ := h.entry hmemOld
    rw [hentry id' hget] at heq
    obtain ⟨rfl, rfl⟩ := Entry.mk.inj heq
    exact ⟨_, directory, rfl, hshort _ _ (hnew hget), hnew hget,
      (hheld _ _ hget).mpr hheldOld, hlive ▸ hwatch⟩
  · intro place directory hmem hplaceShort hget
    obtain ⟨location, rfl, hgetOld⟩ := hwf.exists_of_get?_relocate hsource hfree hget
    obtain ⟨id, hmemOld⟩ := h.covered ((hheld _ _ hgetOld).mp hmem) (hold _ _ hgetOld) hgetOld
    refine ⟨id, ?_⟩
    rw [htable]
    exact List.mem_map.mpr ⟨_, hmemOld, hentry id hgetOld⟩
  · intro id directory hwatch
    rw [hlive] at hwatch
    obtain ⟨location, hmemOld, hget⟩ := h.watch hwatch
    refine ⟨placeAfter source target location, ?_, hnew hget⟩
    rw [htable]
    exact List.mem_map.mpr ⟨_, hmemOld, hentry id hget⟩

end Tracks

/-- A table that is right about everything at and below the live roots. -/
structure Exact (tree : FileTree) (t : Tracker) : Prop where
  /-- Exactly the directories there that can be looked up have an entry, under the path of their
  place. -/
  covers : ∀ path, (∃ entry ∈ t.table.entries, entry.path = path) ↔
    ∃ location directory, path = pathOf location ∧ IsShort location ∧
      tree.get? location = some (.directory directory) ∧ t.roots.Reach path
  /-- No two entries share a watch or a path. -/
  distinct : t.table.entries.Pairwise fun a b => a.id ≠ b.id ∧ a.path.same b.path = false
  /-- The live watches are those of the entries, each on the directory at the path of its entry. -/
  watches : ∀ id directory, (id, directory) ∈ t.source.live ↔ ∃ location,
    ⟨id, pathOf location⟩ ∈ t.table.entries ∧ tree.get? location = some (.directory directory)

theorem Tracks.exact (hwf : tree.WellFormed)
    (h : Tracks tree (fun location => t.roots.Reach (pathOf location)) t) : Exact tree t where
  covers path := by
    constructor
    · rintro ⟨⟨id, _⟩, hentry, rfl⟩
      obtain ⟨location, directory, rfl, hshort, hget, hreach, -⟩ := h.entry hentry
      exact ⟨location, directory, rfl, hshort, hget, hreach⟩
    · rintro ⟨location, directory, rfl, hshort, hget, hreach⟩
      obtain ⟨id, hentry⟩ := h.covered hreach hshort hget
      exact ⟨_, hentry, rfl⟩
  distinct := h.distinct hwf
  watches _ _ := h.watches_iff hwf

theorem Exact.tracks (h : Exact tree t) (hsound : t.source.Sound) :
    Tracks tree (fun location => t.roots.Reach (pathOf location)) t where
  sound := hsound
  ids := by
    rw [List.Nodup, List.pairwise_map]
    exact h.distinct.imp And.left
  entry {id path} hentry := by
    obtain ⟨location, directory, rfl, hshort, hget, hreach⟩ := (h.covers path).mp ⟨_, hentry, rfl⟩
    exact ⟨location, directory, rfl, hshort, hget, hreach,
      (h.watches id directory).mpr ⟨location, hentry, hget⟩⟩
  covered {location directory} hreach hshort hget := by
    obtain ⟨⟨id, _⟩, hentry, rfl⟩ :=
      (h.covers _).mpr ⟨location, directory, rfl, hshort, hget, hreach⟩
    exact ⟨id, hentry⟩
  watch := (h.watches _ _).mp

end Tracker

end TreeWatch
