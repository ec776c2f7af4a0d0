import TreeWatch.Proofs.Tracker.Mirror

/-!
# Trackers that lag behind

Directories are made and removed while what was reported of it still waits. The tree may run ahead
of the events as far as it likes: names are given anew, events speak of directories that are gone,
and several entries may have one path. What waits is a row of notices, and the invariant says how it
makes up for the difference between table and tree.
-/

namespace TreeWatch

open FileTree

namespace FileTree

variable {tree next : FileTree} {location place : Location} {directory : DirectoryId}

/-- There is no link at a place or on the way to it. -/
def Clear (tree : FileTree) (location : Location) : Prop :=
  ∀ front, front <+: location → ∀ target, tree.get? front ≠ some (.link target)

theorem Clear.linkFree (h : tree.Clear location) : tree.LinkFree location := by
  intro front back heq _
  exact h front ⟨back, heq.symm⟩

theorem WellFormed.clear (h : tree.WellFormed)
    (hget : tree.get? location = some (.directory directory)) :
    tree.Clear location := by
  intro front hfront target
  by_cases heq : front = location
  · rw [heq, hget]
    simp
  · obtain ⟨back, rfl⟩ := hfront
    have hback : back ≠ [] := fun hnil => heq (by rw [hnil, List.append_nil])
    exact h.linkFree hget front back rfl hback target

theorem Clear.mono (h : tree.Clear location)
    (hlinks : ∀ place target, next.get? place = some (.link target) →
      tree.get? place = some (.link target)) :
    next.Clear location := by
  intro front hfront target hlink
  exact h front hfront target (hlinks front target hlink)

theorem Clear.putDirectory (h : tree.Clear location) (hfree : tree.get? place = none) :
    (tree.putDirectory place).Clear location := by
  apply h.mono
  intro other target hlink
  rw [get?_putDirectory tree (WellFormed.ne_nil_of_free hfree)] at hlink
  split at hlink
  · exact absurd hlink (by simp)
  · exact hlink

theorem Clear.erase (h : tree.Clear location) (hne : place ≠ []) :
    (tree.erase place).Clear location := by
  apply h.mono
  intro other target hlink
  rw [get?_erase tree hne] at hlink
  split at hlink
  · exact absurd hlink (by simp)
  · exact hlink

end FileTree

/-- What was reported and not yet taken in. -/
inductive Notice where
  /-- A directory was made in the watched directory. -/
  | made (watch : WatchId) (name : Bytes)
  /-- The watched directory was removed. -/
  | removed (watch : WatchId)
  deriving DecidableEq

namespace Notice

def watch : Notice → WatchId
  | made watch _ => watch
  | removed watch => watch

def events : Notice → List Event
  | made watch name => [⟨watch, .create, true, none, some name⟩]
  | removed watch => [.onWatch watch .deleteSelf, .onWatch watch .ignored]

/-- The end of the first watch is announced before that of the second, if that is announced at
all. -/
def Precedes (notices : List Notice) (first second : WatchId) : Prop :=
  ∃ front back, notices = front ++ .removed first :: back ∧ .removed second ∉ front

theorem Precedes.append {notices : List Notice} {first second : WatchId}
    (h : Precedes notices first second) (more : List Notice) :
    Precedes (notices ++ more) first second := by
  obtain ⟨front, back, rfl, hnot⟩ := h
  exact ⟨front, back ++ more, by simp, hnot⟩

theorem Precedes.tail {notice : Notice} {notices : List Notice} {first second : WatchId}
    (h : Precedes (notice :: notices) first second) (hne : notice ≠ .removed first) :
    Precedes notices first second := by
  obtain ⟨front, back, heq, hnot⟩ := h
  cases front with
  | nil => exact absurd (List.cons.inj heq).1 hne
  | cons head front =>
    obtain ⟨rfl, rfl⟩ := List.cons.inj heq
    exact ⟨front, back, rfl, fun hmem => hnot (List.mem_cons_of_mem _ hmem)⟩

/-- Nothing precedes the end that is announced first. -/
theorem Precedes.eq_of_head {notices : List Notice} {first second : WatchId}
    (h : Precedes (.removed second :: notices) first second) : first = second := by
  obtain ⟨front, back, heq, hnot⟩ := h
  cases front with
  | nil => exact (Notice.removed.inj (List.cons.inj heq).1).symm
  | cons head front =>
    obtain ⟨rfl, -⟩ := List.cons.inj heq
    exact absurd (List.mem_cons_self ..) hnot

theorem Precedes.of_notMem {notices : List Notice} {first second : WatchId}
    (hfirst : .removed first ∈ notices) (hsecond : .removed second ∉ notices) :
    Precedes notices first second := by
  obtain ⟨front, back, rfl⟩ := List.append_of_mem hfirst
  exact ⟨front, back, rfl, fun hmem => hsecond (List.mem_append_left _ hmem)⟩

end Notice

namespace Tracker

open TreeWatch.Action

variable {tree next : FileTree} {t u : Tracker} {id other : WatchId} {notices : List Notice}
  {location place parent : Location} {name : Bytes} {directory holder : DirectoryId}

theorem Aligned.eq_of_path (h : Aligned tree t) (hwf : tree.WellFormed) {path : Path}
    (hfirst : ⟨id, path⟩ ∈ t.table.entries) (hsecond : ⟨other, path⟩ ∈ t.table.entries)
    (hlive : (id, directory) ∈ t.source.live)
    (hget : tree.get? location = some (.directory directory))
    (hlive' : (other, holder) ∈ t.source.live)
    (hget' : tree.get? place = some (.directory holder)) :
    id = other := by
  have hpath := (WatchTable.eq_of_mem_entries h.ids (h.placed hlive hget) hfirst).trans
    (WatchTable.eq_of_mem_entries h.ids hsecond (h.placed hlive' hget'))
  obtain rfl := (pathOf_inj (hwf.isPlace hget) (hwf.isPlace hget')).mp hpath
  obtain rfl := eq_of_get?_directory hget hget'
  exact h.sound.eq_of_directory hlive hlive'

/-- How far a tracker is behind the tree: `notices` wait, and they make up for what is not yet
so. -/
structure Backlog (tree : FileTree) (t : Tracker) (notices : List Notice) : Prop where
  sound : t.source.Sound
  refused : t.source.refused = []
  departures : t.departures = .empty
  draining : t.draining.length ≤ 1
  queue : t.source.queue = t.draining.map (.onWatch · .ignored) ++ notices.flatMap Notice.events
  short : ∀ {location directory}, tree.get? location = some (.directory directory) →
    IsShort location
  ids : (t.table.entries.map (·.id)).Nodup
  known : ∀ watch ∈ t.source.live, watch.2 < tree.nextId
  /-- Entries stand for live watches, and no link is in the way to what they name. -/
  entry : ∀ {id path}, ⟨id, path⟩ ∈ t.table.entries → id ∉ t.draining ∧
    (∃ directory, (id, directory) ∈ t.source.live) ∧
    ∃ location, path = pathOf location ∧ IsPlace location ∧ tree.Clear location
  /-- A watched directory that stands has its entry. -/
  standing : ∀ {id directory location}, (id, directory) ∈ t.source.live →
    tree.get? location = some (.directory directory) →
    ⟨id, pathOf location⟩ ∈ t.table.entries ∧ .removed id ∉ notices
  /-- The end of the watch of a directory that is gone is announced. -/
  gone : ∀ {id directory}, (id, directory) ∈ t.source.live →
    (∀ location, tree.get? location ≠ some (.directory directory)) →
    id ∈ t.draining ∨ .removed id ∈ notices
  removed : ∀ {id}, .removed id ∈ notices → ∃ path, ⟨id, path⟩ ∈ t.table.entries
  made : ∀ {id name}, .made id name ∈ notices →
    ∃ location, ⟨id, pathOf location⟩ ∈ t.table.entries ∧ IsPlace (location ++ [name]) ∧
    tree.Clear (location ++ [name])
  /-- Nothing follows the announced end of a watch. -/
  last : notices.Pairwise fun notice later => notice ≠ .removed later.watch
  /-- A directory in a watched directory is watched or will be told of. -/
  covered : ∀ {id directory location name child}, (id, directory) ∈ t.source.live →
    tree.get? location = some (.directory directory) →
    tree.get? (location ++ [name]) = some (.directory child) →
    (∃ other, (other, child) ∈ t.source.live) ∨ .made id name ∈ notices
  /-- Of watches with one path, the older ends first. -/
  successive : ∀ {id other path}, ⟨id, path⟩ ∈ t.table.entries → ⟨other, path⟩ ∈ t.table.entries →
    id.raw < other.raw → Notice.Precedes notices id other

namespace Backlog

theorem aligned (h : Backlog tree t notices) : Aligned tree t where
  sound := h.sound
  ids := h.ids
  live _ hentry := (h.entry hentry).2.1
  known := h.known
  placed hlive hget := (h.standing hlive hget).1

theorem draining_cases (h : Backlog tree t notices) :
    t.draining = [] ∨ ∃ id, t.draining = [id] := by
  rcases Nat.le_one_iff_eq_zero_or_eq_one.mp h.draining with hzero | hone
  · exact .inl (List.length_eq_zero_iff.mp hzero)
  · exact .inr (List.length_eq_one_iff.mp hone)

/-- The place of an entry is that of its directory, as long as this stands. -/
theorem place_eq (h : Backlog tree t notices) (hwf : tree.WellFormed)
    (hentry : ⟨id, pathOf location⟩ ∈ t.table.entries) (hplace : IsPlace location)
    (hlive : (id, directory) ∈ t.source.live)
    (hget : tree.get? place = some (.directory directory)) : place = location := by
  have hentry' := (h.standing hlive hget).1
  apply (pathOf_inj (hwf.isPlace hget) hplace).mp
  exact WatchTable.eq_of_mem_entries h.ids hentry' hentry

section Reported

/-- What a change of the tree and the notices of it have to agree on. -/
structure Reports (tree next : FileTree) (t : Tracker) (more : List Notice) : Prop where
  short : ∀ {location directory}, next.get? location = some (.directory directory) →
    IsShort location
  nextId : tree.nextId ≤ next.nextId
  clear : ∀ {location}, tree.Clear location → next.Clear location
  /-- A watched directory that stands was there before, and its end is not announced. -/
  stood : ∀ {id directory location}, (id, directory) ∈ t.source.live →
    next.get? location = some (.directory directory) →
    tree.get? location = some (.directory directory) ∧ .removed id ∉ more
  /-- The end of a watched directory that is gone since is announced. -/
  gone : ∀ {id directory location}, (id, directory) ∈ t.source.live →
    tree.get? location = some (.directory directory) →
    (∀ place, next.get? place ≠ some (.directory directory)) → .removed id ∈ more
  /-- A notice is of a watched directory that stood before. -/
  told : ∀ notice ∈ more, ∃ directory location, (notice.watch, directory) ∈ t.source.live ∧
    tree.get? location = some (.directory directory) ∧
    ∀ name, notice = .made notice.watch name →
      IsPlace (location ++ [name]) ∧ next.Clear (location ++ [name])
  single : more.length ≤ 1
  /-- A directory in a watched directory was there before or is told of. -/
  covered : ∀ {id directory location name child}, (id, directory) ∈ t.source.live →
    next.get? location = some (.directory directory) →
    next.get? (location ++ [name]) = some (.directory child) →
    tree.get? (location ++ [name]) = some (.directory child) ∨ .made id name ∈ more

theorem Reports.pairwise {more : List Notice} (h : Reports tree next t more) :
    more.Pairwise fun notice later => notice ≠ .removed later.watch := by
  have hsingle := h.single
  cases more with
  | nil => exact .nil
  | cons notice rest =>
    obtain rfl : rest = [] := List.eq_nil_of_length_eq_zero (by simpa using hsingle)
    exact List.pairwise_singleton _ _

/-- A change that is reported leaves the tracker behind by the notices of it. -/
theorem extend (h : Backlog tree t notices) {more : List Notice}
    (hreports : Reports tree next t more) {events : List Event}
    (hevents : events = more.flatMap Notice.events) :
    Backlog next (t.queued events) (notices ++ more) where
  sound := h.sound.of_sublist (List.Sublist.refl _) rfl
  refused := h.refused
  departures := h.departures
  draining := h.draining
  queue := by simp [queued, h.queue, hevents]
  short := hreports.short
  ids := h.ids
  known watch hwatch := Nat.lt_of_lt_of_le (h.known watch hwatch) hreports.nextId
  entry hentry := by
    obtain ⟨hdraining, hlive, location, hpath, hplace, hclear⟩ := h.entry hentry
    exact ⟨hdraining, hlive, location, hpath, hplace, hreports.clear hclear⟩
  standing hlive hget := by
    obtain ⟨hold, hnot⟩ := hreports.stood hlive hget
    obtain ⟨hentry, hnotOld⟩ := h.standing hlive hold
    exact ⟨hentry, fun hmem => (List.mem_append.mp hmem).elim hnotOld hnot⟩
  gone {id directory} hlive hnone := by
    by_cases hstands : ∃ location, tree.get? location = some (.directory directory)
    · obtain ⟨location, hget⟩ := hstands
      exact .inr (List.mem_append_right _ (hreports.gone hlive hget hnone))
    · exact (h.gone hlive fun location hget => hstands ⟨location, hget⟩).imp_right
        (List.mem_append_left _)
  removed hmem := by
    rcases List.mem_append.mp hmem with hold | hmem
    · exact h.removed hold
    · obtain ⟨directory, location, hlive, hget, -⟩ := hreports.told _ hmem
      exact ⟨_, (h.standing hlive hget).1⟩
  made hmem := by
    rcases List.mem_append.mp hmem with hold | hmem
    · obtain ⟨location, hentry, hplace, hclear⟩ := h.made hold
      exact ⟨location, hentry, hplace, hreports.clear hclear⟩
    · obtain ⟨directory, location, hlive, hget, hmade⟩ := hreports.told _ hmem
      exact ⟨location, (h.standing hlive hget).1, hmade _ rfl⟩
  last := by
    rw [List.pairwise_append]
    refine ⟨h.last, hreports.pairwise, ?_⟩
    rintro notice hold later hmem rfl
    obtain ⟨directory, location, hlive, hget, -⟩ := hreports.told _ hmem
    exact (h.standing hlive hget).2 hold
  covered hlive hget hchild := by
    rcases hreports.covered hlive hget hchild with hold | hmade
    · exact (h.covered hlive (hreports.stood hlive hget).1 hold).imp_right (List.mem_append_left _)
    · exact .inr (List.mem_append_right _ hmade)
  successive hfirst hsecond hlt := (h.successive hfirst hsecond hlt).append more

theorem mem_made_iff (h : t.source.Sound) :
    Notice.made id name ∈ ((t.source.watchOf? holder).map (Notice.made · name)).toList ↔
      (id, holder) ∈ t.source.live := by
  rw [← h.watchOf?_eq_some_iff]
  simp

theorem mem_removed_iff (h : t.source.Sound) :
    Notice.removed id ∈ ((t.source.watchOf? directory).map Notice.removed).toList ↔
      (id, directory) ∈ t.source.live := by
  rw [← h.watchOf?_eq_some_iff]
  simp

theorem reports_make (h : Backlog tree t notices) (hwf : tree.WellFormed)
    (hparent : tree.get? parent = some (.directory holder)) (hname : IsName name)
    (hfree : tree.get? (parent ++ [name]) = none) (hshort : IsShort (parent ++ [name])) :
    Reports tree (tree.putDirectory (parent ++ [name])) t
      ((t.source.watchOf? holder).map (Notice.made · name)).toList := by
  have hget := fun location directory =>
    @get?_putDirectory_eq_some_iff tree (parent ++ [name]) location directory hfree
  have hwf' := hwf.putDirectory hparent hname hfree
  have hmade : (tree.putDirectory (parent ++ [name])).get? (parent ++ [name]) =
      some (.directory tree.nextId) := (hget _ _).mpr (.inl ⟨rfl, rfl⟩)
  constructor
  case short =>
    intro location directory hdirectory
    rcases (hget _ _).mp hdirectory with ⟨rfl, -⟩ | hold
    · exact hshort
    · exact h.short hold
  case nextId => exact Nat.le_succ _
  case clear => exact fun hclear => hclear.putDirectory hfree
  case stood =>
    intro id directory location hlive hdirectory
    refine ⟨((hget _ _).mp hdirectory).resolve_left fun hnew => ?_, by simp⟩
    have hlt := h.known _ hlive
    rw [hnew.2] at hlt
    exact Nat.lt_irrefl _ hlt
  case gone =>
    intro id directory location hlive hold hnone
    exact absurd ((hget _ _).mpr (.inr hold)) (hnone location)
  case told =>
    intro notice hnotice
    obtain ⟨id, hid, rfl⟩ := Option.map_eq_some_iff.mp (Option.mem_toList.mp hnotice)
    refine ⟨holder, parent, Source.watchOf?_eq_some hid, hparent, fun other heq => ?_⟩
    obtain rfl := (Notice.made.inj heq).2
    exact ⟨hwf'.isPlace hmade, hwf'.clear hmade⟩
  case single => cases t.source.watchOf? holder <;> simp
  case covered =>
    intro id directory location other child hlive hdirectory hchild
    rcases (hget _ _).mp hchild with ⟨heq, -⟩ | hold
    · obtain ⟨rfl, hlast⟩ := List.append_inj' heq rfl
      obtain rfl := (List.cons.inj hlast).1
      rcases (hget _ _).mp hdirectory with ⟨hself, -⟩ | hdirectory
      · simp at hself
      · obtain rfl := eq_of_get?_directory hparent hdirectory
        exact .inr ((mem_made_iff h.sound).mpr hlive)
    · exact .inl hold

theorem make (h : Backlog tree t notices) (hwf : tree.WellFormed)
    (hparent : tree.get? parent = some (.directory holder)) (hname : IsName name)
    (hfree : tree.get? (parent ++ [name]) = none) (hshort : IsShort (parent ++ [name])) :
    ∃ more, Backlog (tree.putDirectory (parent ++ [name])) (t.queued
      (reported t.source tree parent fun id => ⟨id, .create, true, none, some name⟩)) (notices ++
        more) := by
  refine ⟨_, h.extend (h.reports_make hwf hparent hname hfree hshort) ?_⟩
  simp only [reported, hparent]
  cases t.source.watchOf? holder <;> rfl

theorem reports_remove (h : Backlog tree t notices) (hwf : tree.WellFormed) (hne : location ≠ [])
    (hget : tree.get? location = some (.directory directory))
    (hempty : ∀ name, tree.get? (location ++ [name]) = none) :
    Reports tree (tree.erase location) t ((t.source.watchOf? directory).map
      Notice.removed).toList := by
  have hold := fun place other =>
    @get?_erase_eq_some_iff tree location place (.directory other) hwf hne hempty
  constructor
  case short => exact fun hother => h.short ((hold _ _).mp hother).2
  case nextId => exact Nat.le_refl _
  case clear => exact fun hclear => hclear.erase hne
  case stood =>
    intro id other place hlive hother
    obtain ⟨hne, hother⟩ := (hold _ _).mp hother
    refine ⟨hother, fun hremoved => hne ?_⟩
    obtain rfl := h.sound.eq_of_id hlive ((mem_removed_iff h.sound).mp hremoved)
    exact hwf.unique hother hget
  case gone =>
    intro id other place hlive hother hnone
    have hplace : place = location := by
      by_contra hne
      exact hnone place ((hold _ _).mpr ⟨hne, hother⟩)
    rw [hplace] at hother
    obtain rfl := eq_of_get?_directory hget hother
    exact (mem_removed_iff h.sound).mpr hlive
  case told =>
    intro notice hnotice
    obtain ⟨id, hid, rfl⟩ := Option.map_eq_some_iff.mp (Option.mem_toList.mp hnotice)
    exact ⟨directory, location, Source.watchOf?_eq_some hid, hget, fun name heq => by simp at heq⟩
  case single => cases t.source.watchOf? directory <;> simp
  case covered =>
    intro id other place name child _ _ hchild
    exact .inl ((hold _ _).mp hchild).2

theorem remove (h : Backlog tree t notices) (hwf : tree.WellFormed) (hne : location ≠ [])
    (hget : tree.get? location = some (.directory directory))
    (hempty : ∀ name, tree.get? (location ++ [name]) = none) :
    ∃ more, Backlog (tree.erase location) (t.queued
      (reported t.source tree location (.onWatch · .deleteSelf) ++
        reported t.source tree location (.onWatch · .ignored))) (notices ++ more) := by
  refine ⟨_, h.extend (h.reports_remove hwf hne hget hempty) ?_⟩
  simp only [reported, hget]
  cases t.source.watchOf? directory <;> rfl

end Reported

end Backlog

end Tracker

end TreeWatch
