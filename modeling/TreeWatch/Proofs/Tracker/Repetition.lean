import TreeWatch.Proofs.FileTree.Survey
import TreeWatch.Proofs.Tracker.Mirror

/-!
# Events that tell nothing new

A directory that is made while its parent is walked is met by the walk and announced by an event as
well. Where the table already says what stands below the roots, such an event and such a walk change
nothing: every directory that the walk meets is found under the path of its own entry.
-/

namespace TreeWatch

open FileTree

/-- One component, and no dots. It may be longer than a name can be, and then nothing is called
so. -/
structure IsSingle (name : Bytes) : Prop where
  ne_nil : name ≠ []
  ne_dot : name ≠ dot
  ne_dotDot : name ≠ dotDot
  noSlash : slash ∉ name

instance (name : Bytes) : Decidable (IsSingle name) :=
  decidable_of_iff (name ≠ [] ∧ name ≠ dot ∧ name ≠ dotDot ∧ slash ∉ name)
    ⟨fun ⟨h₁, h₂, h₃, h₄⟩ => ⟨h₁, h₂, h₃, h₄⟩, fun h => ⟨h.ne_nil, h.ne_dot, h.ne_dotDot,
      h.noSlash⟩⟩

namespace FileTree

variable {tree : FileTree} {location : Location} {name : Bytes} {directory : DirectoryId}
  {path : Path}

theorem isAbsolute_of_isSingle (h : IsSingle name) : (⟨name⟩ : Path).isAbsolute = false := by
  refine Bool.eq_false_iff.mpr fun habsolute => h.noSlash ?_
  rw [Path.isAbsolute, beq_iff_eq] at habsolute
  exact List.mem_of_head? habsolute

theorem bytes_child_pathOf (hplace : IsPlace location) (h : IsSingle name) :
    ((pathOf location).child name).bytes = slash :: joinWith slash (location ++ [name]) := by
  rw [Path.child, Path.bytes_join (isAbsolute_of_isSingle h)]
  by_cases hnil : location = []
  · subst hnil
    rw [if_pos (.inr (by simp [bytes_pathOf, joinWith]))]
    rfl
  · rw [if_neg (not_or.mpr ⟨by simp [bytes_pathOf], getLast?_bytes_pathOf hplace hnil⟩),
      bytes_pathOf, joinWith_append slash hnil (by simp)]
    rfl

theorem stepsOf_child_pathOf (hplace : IsPlace location) (h : IsSingle name) :
    stepsOf ((pathOf location).child name) = location ++ [name] := by
  have hparts : ∀ part ∈ location ++ [name], slash ∉ part ∧ part ≠ [] := by
    intro part hpart
    rcases List.mem_append.mp hpart with hpart | hpart
    · exact ⟨(hplace part hpart).noSlash, (hplace part hpart).ne_nil⟩
    · obtain rfl := List.mem_singleton.mp hpart
      exact ⟨h.noSlash, h.ne_nil⟩
  have hne : location ++ [name] ≠ [] := by simp
  have hbytes := bytes_child_pathOf hplace h
  have hlast : ((pathOf location).child name).bytes.getLast? ≠ some slash := by
    have hjoin := getLast?_joinWith slash hne fun part hpart => (hparts part hpart).2
    rw [hbytes, List.getLast?_cons, hjoin]
    simp only [List.getLast_append_singleton]
    rw [List.getLast?_eq_some_getLast h.ne_nil, Option.getD_some]
    exact fun heq => h.noSlash (Option.some.inj heq ▸ List.getLast_mem h.ne_nil)
  rw [stepsOf, if_neg hlast, List.append_nil, Path.segments, hbytes, splitAtEach, if_pos rfl,
    splitAtEach_joinWith slash hne fun part hpart => (hparts part hpart).1,
    List.filter_cons_of_neg (by simp), List.filter_eq_self]
  intro part hpart
  simpa using (hparts part hpart).2

theorem find_child_pathOf_of_not_isName (hwf : tree.WellFormed)
    (hget : tree.get? location = some (.directory directory)) (h : IsSingle name)
    (hname : ¬ IsName name) (found : Location × Object) :
    tree.find false ((pathOf location).child name) ≠ .ok found := by
  intro hfind
  obtain ⟨hnul, -, -, hfollow⟩ := find_eq_ok_iff.mp hfind
  have hplace := hwf.isPlace hget
  have hlong : nameMax < name.length := by
    refine Nat.lt_of_not_le fun hle => hname ⟨h.ne_nil, h.ne_dot, h.ne_dotDot, h.noSlash,
      fun hzero => ?_, hle⟩
    rw [bytes_child_pathOf hplace h, List.contains_eq_mem, decide_eq_false_iff_not] at hnul
    refine hnul (List.mem_cons_of_mem _ ?_)
    by_cases hnil : location = []
    · simpa [hnil, joinWith] using hzero
    · simp [joinWith_append slash hnil, joinWith, hzero]
  -- The steps lead to the directory, and the last one is refused there.
  have hadvance := advance_of_linkFree hwf location [] hplace (hwf.linkFree hget)
  rw [List.nil_append, hget] at hadvance
  have hon := (@advance_append tree [] false location [] [name] rfl (by simp)).1 location directory
    (by rwa [List.append_nil])
  rw [stepsOf_child_pathOf hplace h, follow, hon] at hfollow
  simp [advance, h.ne_dot, h.ne_dotDot, hlong] at hfollow

end FileTree

namespace Tracker

open TreeWatch.Action

variable {tree : FileTree} {t u : Tracker} {now : Nat} {location : Location}
  {directory : DirectoryId} {name : Bytes} {entry : Entry} {event : Event} {path start : Path}

/-- At rest, and with a source that refuses nothing: the entries are the directories at or below the
live roots that can be looked up, each under the path of its place and with a watch that is not on
its way out. -/
structure Reflects (tree : FileTree) (t : Tracker) : Prop where
  sound : t.source.Sound
  quiet : t.departures = .empty
  refused : t.source.refused = []
  placed : ∀ entry ∈ t.table.entries, ∃ location directory,
    entry.path = pathOf location ∧ tree.get? location = some (.directory directory) ∧
    t.roots.Reach entry.path ∧ (entry.id, directory) ∈ t.source.live ∧ entry.id ∉ t.draining
  covered : ∀ location directory, t.roots.Reach (pathOf location) → IsShort location →
    tree.get? location = some (.directory directory) → ∃ id, ⟨id, pathOf location⟩ ∈ t.table.entries

theorem Reflects.counted (h : Reflects tree t) : Reflects tree t.counted :=
  ⟨h.sound, h.quiet, h.refused, h.placed, h.covered⟩

/-- A mirror of the tree is such a state. -/
theorem Mirrors.reflects (h : Mirrors tree t) (hrefused : t.source.refused = []) :
    Reflects tree t where
  sound := h.sound
  quiet := h.departures
  refused := hrefused
  placed entry hentry := by
    obtain ⟨location, directory, hpath, -, hget, hreach, hlive⟩ := h.tracks.entry hentry
    exact ⟨location, directory, hpath, hget, hpath ▸ hreach, hlive, by simp [h.draining]⟩
  covered _ _ hreach hshort hget := h.tracks.covered hreach hshort hget

theorem Reflects.exists_slotOf? (hwf : tree.WellFormed) (h : Reflects tree t) {id : WatchId}
    (hentry : ⟨id, pathOf location⟩ ∈ t.table.entries)
    (hget : tree.get? location = some (.directory directory)) :
    (id, directory) ∈ t.source.live ∧
      ∃ slot, t.table.slotOf? id = some slot ∧ t.table.get? slot = some ⟨id, pathOf location⟩ := by
  obtain ⟨place, other, hpath, hplace, -, hlive, -⟩ := h.placed _ hentry
  obtain rfl := (pathOf_inj (hwf.isPlace hget) (hwf.isPlace hplace)).mp hpath
  obtain rfl := eq_of_get?_directory hget hplace
  refine ⟨hlive, ?_⟩
  obtain ⟨slot, hslot⟩ := Option.isSome_iff_exists.mp
    (WatchTable.slotOf?_isSome_iff.mpr ⟨h.sound.isUnbound hlive, _, hentry, rfl⟩)
  obtain ⟨⟨found, path⟩, hfound, rfl⟩ := WatchTable.slotOf?_eq_some hslot
  -- Whatever entry of the watch comes first, its directory is the same, and so is its place.
  obtain ⟨place, another, hpath, hplace, -, hother, -⟩ :=
    h.placed _ (WatchTable.mem_entries_of_get? hfound)
  obtain rfl := h.sound.eq_of_id hlive hother
  obtain rfl := hwf.unique hget hplace
  exact ⟨slot, hslot, by rw [hfound, ← hpath]⟩

/-- Asking for a directory below a root finds its entry in place. -/
theorem ends_watchDirectory_reflected (hwf : tree.WellFormed) (h : Reflects tree t)
    (hget : tree.get? location = some (.directory directory))
    (hreach : t.roots.Reach (pathOf location)) :
    (watchDirectory (pathOf location)).Ends ⟨tree, now⟩ t
      (fun watched u => Watched.count watched = 0 ∧ u = t) fun _ _ => False := by
  have hinspect := fun object =>
    @inspect_pathOf_eq_ok_iff _ _ object hwf (hwf.isPlace hget) (hwf.linkFree hget)
  rw [watchDirectory, ends_bind, ends_requestWatch]
  by_cases hshort : IsShort location
  · obtain ⟨id, hentry⟩ := h.covered location directory hreach hshort hget
    obtain ⟨hlive, slot, hslot, hfound⟩ := h.exists_slotOf? hwf hentry hget
    have hadd : t.source.add tree (pathOf location) = .ok (id, t.source) :=
      Source.add_eq_ok_iff.mpr ⟨by simp [h.refused], directory, (hinspect _).mpr ⟨hshort, hget⟩,
        .inl ⟨h.sound.watchOf?_eq_some_iff.mpr hlive, rfl⟩⟩
    simp only [hadd, ends_bind, ends_state, hslot, hfound, Option.map_some]
    rw [if_pos (Path.same_refl _)]
    exact ends_pure.mpr ⟨rfl, rfl⟩
  · have hdirectory : tree.isDirectory (pathOf location) = false :=
      Bool.eq_false_iff.mpr fun hdirectory =>
      hshort ((isDirectory_pathOf_iff hwf (hwf.isPlace hget) (hwf.linkFree hget)).mp hdirectory).1
    cases hadd : t.source.add tree (pathOf location) with
    | ok found =>
      obtain ⟨other, hother, -⟩ := Source.mem_live_of_add hadd
      exact absurd ((hinspect _).mp hother).1 hshort
    | error error =>
      rw [hdirectory, if_neg Bool.false_ne_true]
      exact ends_pure.mpr ⟨rfl, rfl⟩

theorem ends_watchItems_reflected (hwf : tree.WellFormed) (h : Reflects tree t)
    {items : List WalkItem} (hitems : ∀ path, .entry path true ∈ items →
      ∃ location directory, path = pathOf location ∧
      tree.get? location = some (.directory directory) ∧ t.roots.Reach path) :
    (watchItems start items).Ends ⟨tree, now⟩ t (fun n u => n = 0 ∧ u = t) fun _ _ => False := by
  induction items with
  | nil => exact ⟨rfl, rfl⟩
  | cons item rest ih =>
    have hrest := ih fun path hmem => hitems path (List.mem_cons_of_mem _ hmem)
    cases item with
    | failed path error =>
      rw [watchItems, ends_bind, ends_say]
      exact hrest
    | entry path isDirectory =>
      cases isDirectory with
      | false => exact hrest
      | true =>
        obtain ⟨location, directory, rfl, hget, hreach⟩ := hitems path List.mem_cons_self
        rw [watchItems, ends_bind]
        refine (ends_watchDirectory_reflected hwf h hget hreach).imp fun watched u hu => ?_
        obtain ⟨hcount, rfl⟩ := hu
        rcases watched with _ | id | id
        · exact hrest
        · exact absurd hcount (by simp [Watched.count])
        · exact hrest

/-- The directories that a walk meets from a path are places below a root, with their own
spelling. -/
def MeetsReached (tree : FileTree) (t : Tracker) (start : Path) : Prop :=
  ∀ path, .entry path true ∈ tree.walk start → ∃ location directory, path = pathOf location ∧
    tree.get? location = some (.directory directory) ∧ t.roots.Reach path

theorem ends_coverSubtree_reflected (hwf : tree.WellFormed) (h : Reflects tree t)
    (hmeets : MeetsReached tree t start) :
    (coverSubtree start).Ends ⟨tree, now⟩ t (fun n u => n = 0 ∧ u = t) fun _ _ => False :=
  ends_coverSubtree.mpr (ends_watchItems_reflected hwf h hmeets)

theorem ends_welcome_reflected (hwf : tree.WellFormed) (h : Reflects tree t)
    (hmeets : MeetsReached tree t start) :
    (welcome start).Ends ⟨tree, now⟩ t (fun _ u => u = t) fun _ _ => False := by
  rw [welcome, ends_bind]
  refine (ends_coverSubtree_reflected hwf h hmeets).imp fun n u hu => ?_
  obtain ⟨rfl, rfl⟩ := hu
  exact ends_pure.mpr rfl

theorem meetsReached_of_place (hwf : tree.WellFormed) (hplace : IsPlace location)
    (hlinks : tree.LinkFree location)
    (hlink : ∀ target, tree.inspect (pathOf location) ≠ .ok (.link target))
    (hreach : t.roots.Reach (pathOf location)) : MeetsReached tree t (pathOf location) := by
  intro path hmem
  by_cases hshort : IsShort location
  · have hlink' : ∀ target, tree.get? location ≠ some (.link target) := fun target hget =>
      hlink target ((inspect_pathOf_eq_ok_iff hwf hplace hlinks).mpr ⟨hshort, hget⟩)
    obtain ⟨place, directory, hbelow, rfl, hget⟩ := exists_of_mem_walk hwf hplace hlinks hlink' hmem
    obtain ⟨root, hroot, habove⟩ := hreach
    exact ⟨place, directory, rfl, hget, root, hroot,
      Path.isBelow_trans ((isBelow_pathOf_iff (hwf.isPlace hget) hplace).mpr hbelow) habove⟩
  · simp [walk, find_pathOf_of_long hplace hshort] at hmem

theorem Reflects.meetsReached (hwf : tree.WellFormed) (h : Reflects tree t)
    (hentry : entry ∈ t.table.entries) : MeetsReached tree t entry.path := by
  obtain ⟨location, directory, hpath, hget, hreach, -, -⟩ := h.placed entry hentry
  rw [hpath] at hreach ⊢
  refine meetsReached_of_place hwf (hwf.isPlace hget) (hwf.linkFree hget)
    (fun target hlink => ?_) hreach
  have hfound := ((inspect_pathOf_eq_ok_iff hwf (hwf.isPlace hget) (hwf.linkFree hget)).mp hlink).2
  rw [hget] at hfound
  cases hfound

theorem Reflects.meetsReached_child (hwf : tree.WellFormed) (h : Reflects tree t)
    (hentry : entry ∈ t.table.entries) (hname : IsSingle name)
    (hlink : ∀ target, tree.inspect (entry.path.child name) ≠ .ok (.link target)) :
    MeetsReached tree t (entry.path.child name) := by
  obtain ⟨location, directory, hpath, hget, ⟨root, hroot, habove⟩, -, -⟩ := h.placed entry hentry
  rw [hpath] at habove hlink ⊢
  have hplace := hwf.isPlace hget
  by_cases hvalid : IsName name
  · have hchild := hplace.concat hvalid
    rw [child_pathOf hplace hvalid] at hlink ⊢
    refine meetsReached_of_place hwf hchild ?_ hlink ⟨root, hroot,
      Path.isBelow_trans ((isBelow_pathOf_iff hchild hplace).mpr (List.prefix_append ..)) habove⟩
    intro front back heq hback target hfront
    obtain ⟨more, rfl⟩ : front <+: location := by
      rw [← List.dropLast_concat_getLast hback, ← List.append_assoc] at heq
      exact ⟨_, (List.append_inj' heq rfl).1.symm⟩
    obtain ⟨above, habove⟩ := hwf.exists_directory_above hget
    rw [hfront] at habove
    cases habove
  · intro path hmem
    cases hfind : tree.find false ((pathOf location).child name) with
    | ok found => exact absurd hfind (find_child_pathOf_of_not_isName hwf hget hname hvalid found)
    | error error => simp [walk, hfind] at hmem

/-- An event that announces what is in the directory of an entry changes nothing but the count of
events. -/
theorem ends_handle_reflected (hwf : tree.WellFormed) (h : Reflects tree t)
    (hentry : entry ∈ t.table.entries) (hwatch : event.watch = entry.id)
    (hkind : event.kind = .create ∨ event.kind = .movedTo) (hdirectory : event.isDirectory = true)
    (hevent : event.name = some name) (hname : IsSingle name)
    (hlink : ∀ target, tree.inspect (entry.path.child name) ≠ .ok (.link target)) :
    (handle event).Ends ⟨tree, now⟩ t (fun flow u => flow = t.flow ∧
      u = t.counted) fun _ _ => False := by
  have hcounted := h.counted
  obtain ⟨location, directory, hpath, hget, -, -, hdraining⟩ := h.placed entry hentry
  have hfound : ⟨entry.id, pathOf location⟩ ∈ t.counted.table.entries := hpath ▸ hentry
  obtain ⟨-, slot, hslot, hslotEntry⟩ := hcounted.exists_slotOf? hwf hfound hget
  have hwelcome : (welcome (entry.path.child name)).Ends ⟨tree, now⟩ t.counted
      (fun _ u => u = t.counted) fun _ _ => False :=
    ends_welcome_reflected hwf hcounted (hcounted.meetsReached_child hwf hentry hname hlink)
  have happly : (applyEvent event).Ends ⟨tree, now⟩ t.counted (fun _ u => u = t.counted)
      fun _ _ => False := by
    unfold applyEvent
    rcases hkind with hkind | hkind
    · rw [hkind]
      simp only [onCreate, hdirectory, if_true, ends_bind, ends_subject, hevent, hwatch, hslot,
        hslotEntry, Option.map_some]
      exact hpath ▸ hwelcome
    · rw [hkind]
      simp only [onMovedTo, hdirectory, if_true, ends_bind, ends_subject, hevent, hwatch, hslot,
        hslotEntry, Option.map_some, ends_claim_of_quiet hcounted.quiet, ends_say]
      exact hpath ▸ hwelcome
  refine (ends_handle_of_quiet h.quiet (.inr (hwatch ▸ hdraining))).mpr
    (happly.imp fun _ u hu => ?_)
  obtain rfl := hu
  exact ⟨rfl, rfl⟩

/-- Where the table says what stands below the roots, an event that announces a directory in the
directory of an entry counts itself and changes nothing else, and so does covering what is at or
below an entry, which finds no directory to add. -/
theorem repeated_delivery_changes_nothing (hwf : tree.WellFormed) (h : Reflects tree t)
    (hentry : entry ∈ t.table.entries) (now : Nat) :
    (∀ event name, event.watch = entry.id → (event.kind = .create ∨ event.kind = .movedTo) →
      event.isDirectory = true → event.name = some name → IsSingle name →
      (∀ target, tree.inspect (entry.path.child name) ≠ .ok (.link target)) →
      (handle event ⟨tree, now⟩ t).result = .ok t.flow ∧
      (handle event ⟨tree, now⟩ t).state =
        { t with counts := { t.counts with events := t.counts.events + 1 } }) ∧
    (coverSubtree entry.path ⟨tree, now⟩ t).result = .ok 0 ∧
      (coverSubtree entry.path ⟨tree, now⟩ t).state = t := by
  constructor
  · intro event name hwatch hkind hdirectory hevent hname hlink
    obtain ⟨flow, hresult, rfl, hstate⟩ :=
      (ends_handle_reflected hwf h hentry hwatch hkind hdirectory hevent hname hlink).exists_ok
    exact ⟨hresult, hstate⟩
  · obtain ⟨n, hresult, rfl, hstate⟩ :=
      (ends_coverSubtree_reflected hwf h (h.meetsReached hwf hentry)).exists_ok
    exact ⟨hresult, hstate⟩

/-- The directory `/r/a` is covered, and then it is announced as the second half of a rename. -/
theorem repeated_delivery_changes_nothing_of_arrival :
    let tree := (FileTree.empty.putDirectory [[114]]).putDirectory [[114], [97]]
    let t := (cover ⟨tree, 0⟩ (ofRoots .empty ⟨[some ⟨pathOf [[114]], 1⟩], 0⟩ ⟨true,
      .rescan⟩)).state
    let event : Event := ⟨⟨1⟩, .movedTo, true, some 7, some [97]⟩
    ⟨⟨2⟩, pathOf [[114], [97]]⟩ ∈ t.table.entries ∧
      (handle event ⟨tree, 5⟩ t).result = .ok t.flow ∧
      (handle event ⟨tree, 5⟩ t).state =
        { t with counts := { t.counts with events := t.counts.events + 1 } } ∧
      (coverSubtree (pathOf [[114]]) ⟨tree, 5⟩ t).result = .ok 0 := by
  intro tree t event
  have hfirst : (FileTree.empty.putDirectory [[114]]).WellFormed :=
    WellFormed.empty.putDirectory (FileTree.get?_nil _) (by decide) (by decide)
  have hparent : (FileTree.empty.putDirectory [[114]]).get? [[114]] = some (.directory 1) := by
    decide
  have hwf : tree.WellFormed := hfirst.putDirectory hparent (by decide) (by decide)
  have houter : tree.get? [[114]] = some (.directory 1) := by decide
  have hroots : ∀ root ∈ (ofRoots .empty ⟨[some ⟨pathOf [[114]], 1⟩], 0⟩ ⟨true,
    .rescan⟩).roots.live,
      root.AvoidsLinks tree := by
    intro root hroot
    simp only [ofRoots, Roots.live, List.filterMap_cons, id_eq, List.filterMap_nil,
      List.mem_singleton] at hroot
    exact ⟨[[114]], hroot ▸ rfl, hwf.isPlace houter, hwf.linkFree houter⟩
  have hbare : (ofRoots .empty ⟨[some ⟨pathOf [[114]], 1⟩], 0⟩ ⟨true, .rescan⟩).Bare :=
    ⟨rfl, rfl, rfl, rfl, rfl⟩
  have hresult : (cover ⟨tree, 0⟩
      (ofRoots .empty ⟨[some ⟨pathOf [[114]], 1⟩], 0⟩ ⟨true, .rescan⟩)).result = .ok 2 := by
    decide +kernel
  have hreflects : Reflects tree t :=
    (hbare.mirrors_of_cover hwf hroots hresult).reflects (by decide +kernel)
  have hentry : ⟨⟨1⟩, pathOf [[114]]⟩ ∈ t.table.entries := by decide +kernel
  obtain ⟨hhandle, hcover, -⟩ := repeated_delivery_changes_nothing hwf hreflects hentry 5
  have hinspect : tree.inspect ((pathOf [[114]]).child [97]) = .ok (.directory 2) := by
    decide +kernel
  obtain ⟨hflow, hstate⟩ := hhandle event [97] rfl (.inr rfl) rfl rfl (by decide) fun target
      htarget => by
    cases hinspect.symm.trans htarget
  exact ⟨by decide +kernel, hflow, hstate, hcover⟩

end Tracker

end TreeWatch
