import TreeWatch.Proofs.Source.Histories
import Mathlib.Logic.Function.Basic

/-!
# Both directions of the registry

A source finds a watch by its number and by its directory. Two maps that are kept each on its own,
one for each direction, say over every history of calls what the one list of watches says, and are
inverse to each other. So while a watch lives, its directory and no other leads to it.
-/

namespace TreeWatch

namespace Source

variable {source next : Source} {id : WatchId} {directory : DirectoryId} {path : Path}
  {tree : FileTree}

def directoryOf? (source : Source) (id : WatchId) : Option DirectoryId :=
  (source.live.find? (·.1 == id)).map (·.2)

theorem directoryOf?_eq_some (h : source.directoryOf? id = some directory) :
    (id, directory) ∈ source.live := by
  obtain ⟨⟨other, found⟩, hfind, rfl⟩ := Option.map_eq_some_iff.mp h
  obtain rfl : other = id := by simpa using List.find?_some hfind
  exact List.mem_of_find?_eq_some hfind

theorem Sound.directoryOf?_eq_some_iff (h : source.Sound) :
    source.directoryOf? id = some directory ↔ (id, directory) ∈ source.live := by
  constructor
  · exact directoryOf?_eq_some
  · intro hmem
    cases hfound : source.directoryOf? id with
    | none =>
      rw [directoryOf?, Option.map_eq_none_iff, List.find?_eq_none] at hfound
      simpa using hfound _ hmem
    | some other => rw [h.eq_of_id (directoryOf?_eq_some hfound) hmem]

/-- The live watches as two maps, from numbers to directories and back. -/
@[ext] structure Index where
  directoryOf : WatchId → Option DirectoryId
  watchOf : DirectoryId → Option WatchId

namespace Index

def empty : Index := ⟨fun _ => none, fun _ => none⟩

def enroll (index : Index) (id : WatchId) (directory : DirectoryId) : Index :=
  ⟨Function.update index.directoryOf id (some directory),
    Function.update index.watchOf directory (some id)⟩

def forget (index : Index) (id : WatchId) : Index :=
  match index.directoryOf id with
  | some directory =>
    ⟨Function.update index.directoryOf id none, Function.update index.watchOf directory none⟩
  | none => index

/-- The maps after a call, each kept on its own. -/
def serve (index : Index) (source : Source) (call : Call) : Index :=
  match call.request with
  | .add path =>
    match call.tree.inspect path with
    | .ok (.directory directory) =>
      if source.refused.contains path || (index.watchOf directory).isSome then index
      else index.enroll ⟨source.nextId⟩ directory
    | _ => index
  | .remove id => index.forget id
  | .next =>
    match source.queue with
    | event :: _ => if event.kind = .ignored then index.forget event.watch else index
    | [] => index
  | .reset => if source.refusesReset then index else empty
  | .push _ | .close | .fail | .regulate _ _ => index

def outcome (index : Index) (source : Source) : List Call → Index
  | [] => index
  | call :: rest => (index.serve source call).outcome (source.serve call) rest

end Index

def index (source : Source) : Index := ⟨source.directoryOf?, source.watchOf?⟩

theorem Sound.index_inverse (h : source.Sound) :
    source.index.directoryOf id = some directory ↔ source.index.watchOf directory = some id :=
  h.directoryOf?_eq_some_iff.trans h.watchOf?_eq_some_iff.symm

theorem index_of_live (h : next.live = source.live) : next.index = source.index := by
  have hforth : next.directoryOf? = source.directoryOf? :=
    funext fun id => by rw [directoryOf?, h, directoryOf?]
  have hback : next.watchOf? = source.watchOf? :=
    funext fun directory => by rw [watchOf?, h, watchOf?]
  rw [index, hforth, hback, index]

/-- Two maps that each hold the live watches and no others are what the source says. -/
theorem Sound.index_eq (h : source.Sound) {index : Index}
    (hforth : ∀ id directory, (id, directory) ∈ source.live ↔ index.directoryOf id = some directory)
    (hback : ∀ id directory, (id, directory) ∈ source.live ↔ index.watchOf directory = some id) :
    source.index = index := by
  ext id directory
  · exact h.directoryOf?_eq_some_iff.trans (hforth id directory)
  · exact h.watchOf?_eq_some_iff.trans (hback directory id)

theorem mem_live_enrolled {watch : WatchId × DirectoryId} :
    watch ∈ (source.enrolled directory).live ↔
      watch ∈ source.live ∨ watch = (⟨source.nextId⟩, directory) := by
  rw [enrolled, List.mem_append, List.mem_singleton]

theorem Sound.index_enrolled (h : source.Sound) (hnew : source.watchOf? directory = none) :
    (source.enrolled directory).index = source.index.enroll ⟨source.nextId⟩ directory := by
  have hfree : ∀ other, (⟨source.nextId⟩, other) ∉ source.live := fun other hmem =>
    Bool.eq_false_iff.mp h.isLive_nextId (isLive_iff.mpr ⟨other, hmem⟩)
  have hunwatched : ∀ id, (id, directory) ∉ source.live := fun id hmem =>
    watchOf?_eq_none_iff.mp hnew _ hmem rfl
  apply (h.enrolled hnew).index_eq
  · intro id other
    simp only [Index.enroll, Function.update_apply, mem_live_enrolled, Prod.mk.injEq]
    by_cases hid : id = ⟨source.nextId⟩
    · subst hid
      simp [hfree, eq_comm]
    · simp [hid, index, h.directoryOf?_eq_some_iff]
  · intro id other
    simp only [Index.enroll, Function.update_apply, mem_live_enrolled, Prod.mk.injEq]
    by_cases hother : other = directory
    · subst hother
      simp [hunwatched, eq_comm]
    · simp [hother, index, h.watchOf?_eq_some_iff]

theorem forget_of_not_live (h : source.isLive id = false) : source.forget id = source := by
  have hlive : source.live.filter (·.1 != id) = source.live := by
    rw [List.filter_eq_self]
    intro watch hmem
    rw [bne_iff_ne]
    rintro rfl
    exact Bool.eq_false_iff.mp h (isLive_iff.mpr ⟨watch.2, hmem⟩)
  rw [Source.forget, hlive]

theorem Sound.directoryOf?_eq_none_iff (h : source.Sound) :
    source.directoryOf? id = none ↔ source.isLive id = false := by
  rw [Bool.eq_false_iff, ne_eq, isLive_iff, Option.eq_none_iff_forall_ne_some, not_exists]
  exact forall_congr' fun directory => not_congr h.directoryOf?_eq_some_iff

theorem Sound.forget (h : source.Sound) (id : WatchId) : (source.forget id).Sound :=
  h.of_sublist (live_forget_sublist source id) rfl

theorem Sound.index_forget (h : source.Sound) (id : WatchId) :
    (source.forget id).index = source.index.forget id := by
  cases hfound : source.directoryOf? id with
  | none =>
    rw [forget_of_not_live (h.directoryOf?_eq_none_iff.mp hfound)]
    simp only [Index.forget, index, hfound]
  | some directory =>
    have hlive := directoryOf?_eq_some hfound
    have hindex : source.index.forget id =
        ⟨Function.update source.directoryOf? id none,
          Function.update source.watchOf? directory none⟩ := by
      simp only [Index.forget, index, hfound]
    rw [hindex]
    apply (h.forget id).index_eq
    · intro other found
      simp only [mem_live_forget, Function.update_apply]
      by_cases hother : other = id
      · simp [hother]
      · simp [hother, h.directoryOf?_eq_some_iff]
    · intro other found
      simp only [mem_live_forget, Function.update_apply]
      by_cases hsame : found = directory
      · subst hsame
        rw [if_pos rfl]
        exact iff_of_false (fun hmem => hmem.2 (h.eq_of_directory hmem.1 hlive)) nofun
      · rw [if_neg hsame, h.watchOf?_eq_some_iff]
        exact and_iff_left_of_imp fun hmem hid => hsame (h.eq_of_id (hid ▸ hmem) hlive)

theorem Sound.serve (h : source.Sound) (call : Call) : (source.serve call).Sound := by
  rcases h.issued_cases call with ⟨directory, hwatch, -, hserve⟩ | ⟨-, hlive, hnext⟩
  · rw [hserve]
    exact h.enrolled hwatch
  · exact h.of_sublist hlive hnext

theorem Sound.index_add (h : source.Sound) (tree : FileTree) (path : Path) :
    (source.serve ⟨tree, .add path⟩).index = source.index.serve source ⟨tree, .add path⟩ := by
  have hwatchOf : source.index.watchOf = source.watchOf? := rfl
  simp only [Source.serve, Index.serve, hwatchOf]
  by_cases hrefused : source.refused.contains path = true
  · rw [Source.add, if_pos hrefused]
    simp only [hrefused, Bool.true_or, if_true]
    cases tree.inspect path with
    | error error => rfl
    | ok found => cases found <;> rfl
  · rw [Source.add, if_neg hrefused]
    cases tree.inspect path with
    | error error => rfl
    | ok found =>
      cases found with
      | file content mode => rfl
      | link target => rfl
      | directory directory =>
        rw [Bool.not_eq_true] at hrefused
        simp only [hrefused, Bool.false_or]
        cases hwatch : source.watchOf? directory with
        | some id => rfl
        | none => exact h.index_enrolled hwatch

/-- Kept each on its own, the maps say after a call what the list says. -/
theorem Sound.index_serve (h : source.Sound) (call : Call) :
    (source.serve call).index = source.index.serve source call := by
  obtain ⟨tree, request⟩ := call
  cases request with
  | add path => exact h.index_add tree path
  | remove id =>
    simp only [Source.serve, Index.serve]
    rw [← h.index_forget id]
    cases hlive : source.isLive id with
    | false =>
      rw [forget_of_not_live hlive, remove, hlive]
      rfl
    | true =>
      rw [remove, hlive]
      exact index_of_live rfl
  | next =>
    simp only [Source.serve, Index.serve, next?]
    cases source.queue with
    | nil => rfl
    | cons event rest =>
      by_cases hkind : event.kind = .ignored
      · simp only [hkind, if_true]
        rw [← h.index_forget event.watch]
        exact index_of_live rfl
      · simp only [hkind, if_false]
        exact index_of_live rfl
  | reset =>
    simp only [Source.serve, Index.serve, reset]
    by_cases hrefuses : source.refusesReset = true
    · rw [if_pos hrefuses, if_pos hrefuses]
    · rw [if_neg hrefuses, if_neg hrefuses]
      rfl
  | push event => exact index_of_live rfl
  | close => exact index_of_live rfl
  | fail => exact index_of_live rfl
  | regulate refused refusesReset => exact index_of_live rfl

theorem Sound.index_outcome (h : source.Sound) (calls : List Call) :
    (source.outcome calls).index = source.index.outcome source calls := by
  induction calls generalizing source with
  | nil => rfl
  | cons call rest ih =>
    rw [Index.outcome, ← h.index_serve call]
    exact ih (h.serve call)

theorem Sound.add_eq_iff {other : WatchId} (h : source.Sound)
    (hlive : (id, directory) ∈ source.live) (hadd : source.add tree path = .ok (other, next)) :
    other = id ↔ tree.inspect path = .ok (.directory directory) := by
  obtain ⟨found, hinspect, hmem⟩ := mem_live_of_add hadd
  have hnext : next.Sound := h.add hadd
  have hkept : (id, directory) ∈ next.live := live_subset_of_add hadd hlive
  rw [hinspect]
  constructor
  · rintro rfl
    rw [hnext.eq_of_id hmem hkept]
  · intro hsame
    obtain rfl : found = directory := by simpa using hsame
    exact hnext.eq_of_directory hmem hkept

/-- A watch is on one directory from the addition that gives it out for as long as it lives. -/
theorem mem_live_of_added {earlier between : List Call} {first : Source}
    (hadd : (Source.empty.outcome earlier).add tree path = .ok (id, first))
    (hlive : (Source.empty.outcome (earlier ++ ⟨tree, .add path⟩ :: between)).isLive id = true) :
    ∃ directory, tree.inspect path = .ok (.directory directory) ∧
      (id, directory) ∈ (Source.empty.outcome (earlier ++ ⟨tree, .add path⟩ :: between)).live := by
  have hserve : (Source.empty.outcome earlier).serve ⟨tree, .add path⟩ = first := by
    simp only [serve, hadd]
  obtain ⟨directory, hinspect, hmem⟩ := mem_live_of_add hadd
  obtain ⟨other, hother⟩ := isLive_iff.mp hlive
  have hsplit : earlier ++ ⟨tree, .add path⟩ :: between = (earlier ++ [⟨tree, .add path⟩]) ++
      between := by
    rw [List.append_assoc, List.singleton_append]
  have hfirst : Source.empty.outcome (earlier ++ [⟨tree, .add path⟩]) = first := by
    rw [outcome_append, ← hserve]
    rfl
  have hthen := Numbered.empty.outcome (earlier ++ [⟨tree, .add path⟩])
  have hnow := hthen.outcome between
  rw [hfirst] at hthen
  rw [← outcome_append, ← hsplit] at hnow
  have hsame : other = directory :=
    hnow.directory_eq (hnow.live hother) (List.mem_append_left _ (hthen.live hmem))
  exact ⟨directory, hinspect, hsame ▸ hother⟩

/-- Over every history of calls, in a tree that may be another each time: the two maps of numbers
and directories are inverse to each other; numbers are given out in ascending order, each for one
directory; while a watch lives, it is found again exactly under the paths of its directory; what
fails changes nothing; and each event that comes in leaves the queue once and in its turn, unless a
reset throws it away. -/
theorem one_watch_per_directory (calls : List Call) :
    let source := Source.empty.outcome calls
    let given := along issued Source.empty calls
    (source.index = Index.empty.outcome Source.empty calls ∧
      ∀ id directory,
        source.index.directoryOf id = some directory ↔ source.index.watchOf directory = some id) ∧
    (source.live ⊆ given ∧
      given.Pairwise (fun first second => first.1.raw < second.1.raw) ∧
      ∀ id first second, (id, first) ∈ given → (id, second) ∈ given → first = second) ∧
    (∀ earlier tree path between, calls = earlier ++ ⟨tree, .add path⟩ :: between →
      ∀ id first, (Source.empty.outcome earlier).add tree path = .ok (id, first) →
      source.isLive id = true →
      ∀ now again other next, source.add now again = .ok (other, next) →
        (other = id ↔ ∃ directory, tree.inspect path = .ok (.directory directory) ∧
          now.inspect again = .ok (.directory directory))) ∧
    (∀ tree path error, source.add tree path = .error error →
      source.serve ⟨tree, .add path⟩ = source) ∧
    (∀ tree id error, source.remove id = .error error → source.serve ⟨tree, .remove id⟩ = source) ∧
    (∀ id next, source.remove id = .ok next → next.queue = source.queue ++ [.onWatch id .ignored]) ∧
    along arriving Source.empty calls =
      (along leaving Source.empty calls).map (·.1) ++ source.queue := by
  intro source given
  have hnumbered : source.Numbered given := Numbered.empty.outcome calls
  have hsound : source.Sound := hnumbered.sound
  refine ⟨⟨?_, fun id directory => hsound.index_inverse⟩, ⟨hnumbered.live, hnumbered.ascending, ?_⟩,
    ?_, ?_, ?_, fun id next => queue_of_remove, ?_⟩
  · exact Numbered.empty.sound.index_outcome calls
  · intro id first second
    exact hnumbered.directory_eq
  · intro earlier tree path between hcalls id first hadd hlive now again other next hagain
    have hsplit : source = Source.empty.outcome (earlier ++ ⟨tree, .add path⟩ :: between) := by
      rw [← hcalls]
    obtain ⟨directory, hinspect, hmem⟩ := mem_live_of_added hadd (hsplit ▸ hlive)
    rw [hsound.add_eq_iff (hsplit ▸ hmem) hagain]
    constructor
    · intro hnow
      exact ⟨directory, hinspect, hnow⟩
    · rintro ⟨same, hsame, hnow⟩
      obtain rfl : directory = same := by simpa using hinspect.symm.trans hsame
      exact hnow
  · intro tree path error hadd
    simp only [serve, hadd]
  · intro tree id error hremove
    simp only [serve, hremove]
  · exact queue_outcome Source.empty calls

/-- A directory that moved is found under its number; without its watch, and after a reset, it gets
a new one. -/
theorem one_watch_per_directory_of_renewals :
    let before : FileTree := ⟨[([[114]], .directory 1)], 2⟩
    let moved : FileTree := ⟨[([[115]], .directory 1)], 2⟩
    let path := FileTree.pathOf [[114]]
    let again := FileTree.pathOf [[115]]
    let calls :
    List Call := [⟨before, .add path⟩, ⟨moved, .remove ⟨1⟩⟩, ⟨moved, .next⟩, ⟨moved, .remove ⟨1⟩⟩,
      ⟨before, .add path⟩, ⟨moved, .push (.onWatch ⟨2⟩ .ignored)⟩, ⟨moved, .reset⟩,
        ⟨before, .add path⟩]
    let source := Source.empty.outcome calls
    along issued Source.empty calls = [(⟨1⟩, 1), (⟨2⟩, 1), (⟨3⟩, 1)] ∧
      along leaving Source.empty calls =
        [(.onWatch ⟨1⟩ .ignored, .handedOut), (.onWatch ⟨2⟩ .ignored, .thrownAway)] ∧
      source.index.directoryOf ⟨3⟩ = some 1 ∧ source.index.watchOf 1 = some ⟨3⟩ ∧
      ∃ other next, source.add moved again = .ok (other, next) ∧ other = ⟨3⟩ := by
  intro before moved path again calls source
  obtain ⟨⟨-, hinverse⟩, -, hsame, -⟩ := one_watch_per_directory calls
  have hforth : source.index.directoryOf ⟨3⟩ = some 1 := by decide +kernel
  have hpath : before.inspect path = .ok (.directory 1) := by rfl
  have hmoved : moved.inspect again = .ok (.directory 1) := by rfl
  have hhere : (Source.empty.outcome (calls.take 7)).add before path =
      .ok (⟨3⟩, (Source.empty.outcome (calls.take 7)).enrolled 1) :=
    add_eq_ok_iff.mpr ⟨by decide +kernel, 1, hpath,
      .inr ⟨by decide +kernel, by decide +kernel, rfl⟩⟩
  have hagain : source.add moved again = .ok (⟨3⟩, source) :=
    add_eq_ok_iff.mpr ⟨by decide +kernel, 1, hmoved, .inl ⟨by decide +kernel, rfl⟩⟩
  refine ⟨by decide +kernel, by decide +kernel, hforth, (hinverse ⟨3⟩ 1).mp hforth, ⟨3⟩, source,
    hagain, ?_⟩
  exact (hsame (calls.take 7) before path [] rfl ⟨3⟩ _ hhere (by decide +kernel) moved again
    ⟨3⟩ source hagain).mpr ⟨1, hpath, hmoved⟩

end Source

end TreeWatch
