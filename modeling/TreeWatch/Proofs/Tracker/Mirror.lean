import TreeWatch.Proofs.Tracker.Dropping
import TreeWatch.Proofs.Tracker.Quiet
import TreeWatch.Proofs.Tracker.Rebuild
import Mathlib.Data.List.Pairwise

/-!
# Mirrors of the tree

A tracker at rest mirrors the tree if its table is right about everything below its roots.
Directories then change one at a time: one is made, an empty one is removed, or one is moved with
all that it holds. The kernel reports the change on the watches of the directories it touches, and
once what it reported is handled the tracker is a mirror again.
-/

namespace TreeWatch

open FileTree

/-- Every live root is a directory of the tree. -/
def Roots.StandIn (roots : Roots) (tree : FileTree) : Prop :=
  ∀ root ∈ roots.live, ∃ location directory,
    root.path = pathOf location ∧ tree.get? location = some (.directory directory)

/-- No live root lies at or below another. -/
def Roots.Apart (roots : Roots) : Prop :=
  roots.live.Pairwise fun a b => a.path.isBelow b.path = false ∧ b.path.isBelow a.path = false

namespace Roots.Apart

variable {tree : FileTree} {roots : Roots} {root other : Root} {place : Location}

theorem eq_of_isBelow (h : roots.Apart) (hroot : root ∈ roots.live) (hother : other ∈ roots.live)
    (hbelow : root.path.isBelow other.path = true) : root = other := by
  have : Std.Symm fun a b : Root => a.path.isBelow b.path = false ∧ b.path.isBelow a.path = false :=
    ⟨fun _ _ => And.symm⟩
  by_contra hne
  exact Bool.false_ne_true ((List.Pairwise.forall h hroot hother hne).1.symm.trans hbelow)

theorem distinct (h : roots.Apart) : roots.live.Pairwise fun a b => a.path.same b.path = false := by
  refine h.imp fun {a b} hab => Bool.eq_false_iff.mpr fun hsame => ?_
  rw [Path.isBelow_congr hsame, Path.isBelow_refl] at hab
  exact Bool.false_ne_true hab.1.symm

/-- The only live root at or below a place that is reached is one at that place. -/
theorem path_eq (h : roots.Apart) (hroots : roots.StandIn tree) (hwf : tree.WellFormed)
    (hplace : IsPlace place) (hreach : roots.Reach (pathOf place)) (hroot : root ∈ roots.live)
    (hbelow : root.path.isBelow (pathOf place) = true) : root.path = pathOf place := by
  obtain ⟨other, hother, habove⟩ := hreach
  obtain ⟨r, _, hr, hget⟩ := hroots root hroot
  obtain ⟨q, _, hq, hgetq⟩ := hroots other hother
  rw [hr, isBelow_pathOf_iff (hwf.isPlace hget) hplace] at hbelow
  rw [hq, isBelow_pathOf_iff hplace (hwf.isPlace hgetq)] at habove
  have hsame : root = other := h.eq_of_isBelow hroot hother <| by
    rw [hr, hq]
    exact (isBelow_pathOf_iff (hwf.isPlace hget) (hwf.isPlace hgetq)).mpr (habove.trans hbelow)
  rw [hsame, hq, pathOf_inj (hwf.isPlace hgetq) (hwf.isPlace hget)] at hr
  rw [hsame, hq, habove.eq_of_length_le (hr ▸ hbelow.length_le)]

theorem eraseP_live (h : roots.Apart) (hroots : roots.StandIn tree) (hwf : tree.WellFormed)
    (hplace : IsPlace place) : roots.live.eraseP (·.path.same (pathOf place)) =
      roots.live.filter fun root => root.path ≠ pathOf place := by
  have hsame : ∀ root ∈ roots.live,
      root.path.same (pathOf place) = decide (root.path = pathOf place) := by
    intro root hroot
    obtain ⟨r, _, hr, hget⟩ := hroots root hroot
    rw [hr, Bool.eq_iff_iff, same_pathOf_iff (hwf.isPlace hget) hplace, decide_eq_true_iff,
      pathOf_inj (hwf.isPlace hget) hplace]
  rw [eraseP_eq_filter (once_of_distinct h.distinct _)]
  apply List.filter_congr
  intro root hroot
  rw [hsame root hroot, decide_not]

theorem path_ne (h : roots.Apart) (hroots : roots.StandIn tree) (hwf : tree.WellFormed)
    {name : Bytes} (hplace : IsPlace (place ++ [name])) (hreach : roots.Reach (pathOf place))
    (hroot : root ∈ roots.live) :
    root.path ≠ pathOf (place ++ [name]) := by
  intro heq
  have hpath := h.path_eq hroots hwf hplace.left hreach hroot
    (heq ▸ (isBelow_pathOf_iff hplace hplace.left).mpr (List.prefix_append _ _))
  have hself := (pathOf_inj hplace hplace.left).mp (heq.symm.trans hpath)
  simp at hself

end Roots.Apart

theorem Roots.isRoot_eq_false_of_free {tree : FileTree} {roots rest : Roots} {place : Location}
    (h : roots.StandIn tree) (hsub : rest.live ⊆ roots.live) (hwf : tree.WellFormed)
    (hplace : IsPlace place) (hfree : tree.get? place = none) :
    rest.isRoot (pathOf place) = false := by
  apply Bool.eq_false_iff.mpr
  intro hroot
  obtain ⟨root, hmem, hsame⟩ := isRoot_iff.mp hroot
  obtain ⟨r, _, hr, hget⟩ := h root (hsub hmem)
  rw [hr, same_pathOf_iff (hwf.isPlace hget) hplace] at hsame
  rw [hsame, hfree] at hget
  exact absurd hget (by simp)

/-- Without the root at a place, what is not at or below the place is reached as before. -/
theorem Roots.reach_iff_of_filter {roots rest : Roots} {location place : Location}
    (h : rest.live = roots.live.filter fun root => root.path ≠ pathOf place)
    (hplace : IsPlace place) (hlocation : IsPlace location) (hnot : ¬ place <+: location) :
    rest.Reach (pathOf location) ↔ roots.Reach (pathOf location) := by
  rw [Reach, Reach, h]
  constructor
  · rintro ⟨root, hroot, hbelow⟩
    exact ⟨root, List.mem_of_mem_filter hroot, hbelow⟩
  · rintro ⟨root, hroot, hbelow⟩
    refine ⟨root, List.mem_filter.mpr ⟨hroot, decide_eq_true fun heq => hnot ?_⟩, hbelow⟩
    rw [heq] at hbelow
    exact (isBelow_pathOf_iff hlocation hplace).mp hbelow

namespace Tracker

open TreeWatch.Action

variable {tree next : FileTree} {t u : Tracker} {id : WatchId} {event : Event} {rest : List Event}
  {location place parent source target : Location} {name : Bytes} {directory : DirectoryId}

/-- A tracker at rest whose table, watches and roots are those of the tree. -/
structure Mirrors (tree : FileTree) (t : Tracker) : Prop where
  exact : Exact tree t
  roots : t.roots.StandIn tree
  sound : t.source.Sound
  queue : t.source.queue = []
  departures : t.departures = .empty
  draining : t.draining = []

theorem Tracks.mirrors (hwf : tree.WellFormed)
    (h : Tracks tree (fun location => t.roots.Reach (pathOf location)) t)
    (hroots : t.roots.StandIn tree) (hqueue : t.source.queue = []) (hquiet : t.departures = .empty)
    (hdraining : t.draining = []) :
    Mirrors tree t :=
  ⟨h.exact hwf, hroots, h.sound, hqueue, hquiet, hdraining⟩

theorem Mirrors.tracks (h : Mirrors tree t) :
    Tracks tree (fun location => t.roots.Reach (pathOf location)) t :=
  h.exact.tracks h.sound

/-- What a rebuild leaves, and so a start, is a mirror. -/
theorem Rebuilt.mirrors (hwf : tree.WellFormed) {n : Nat} (h : Rebuilt tree t n u)
    (hroots : ∀ root ∈ t.roots.live, root.AvoidsLinks tree) : Mirrors tree u where
  exact := h.exact
  roots root hroot := by
    rw [h.roots, List.mem_filter] at hroot
    obtain ⟨location, hpath, hplace, hlinks⟩ := hroots root hroot.1
    rw [hpath, isDirectory_pathOf_iff hwf hplace hlinks] at hroot
    obtain ⟨-, -, directory, hget⟩ := hroot
    exact ⟨location, directory, hpath, hget⟩
  sound := h.sound
  queue := h.queue
  departures := h.departures
  draining := h.draining

theorem Bare.mirrors_of_cover (hwf : tree.WellFormed) (h : t.Bare) {now n : Nat}
    (hroots : ∀ root ∈ t.roots.live, root.AvoidsLinks tree)
    (hresult : (cover ⟨tree, now⟩ t).result = .ok n) : Mirrors tree (cover ⟨tree, now⟩ t).state :=
  ((h.ends_cover hwf hroots).of_ok hresult).mirrors hwf hroots

section Reports

/-- With events queued. -/
def queued (t : Tracker) (events : List Event) : Tracker :=
  { t with source := { t.source with queue := t.source.queue ++ events } }

/-- What is reported on the watch of the directory at a place, if that is watched. -/
def reported (source : Source) (tree : FileTree) (location : Location) (event : WatchId → Event) :
    List Event :=
  match tree.get? location with
  | some (.directory directory) => ((source.watchOf? directory).map event).toList
  | _ => []

/-- A change of one directory, the tree after it, what the kernel reports, and the place at which
there is no directory any more. -/
inductive Alters (tree : FileTree) (source : Source) :
    FileTree → List Event → Option Location → Prop
  | made {parent : Location} {name : Bytes} {holder : DirectoryId}
      (hparent : tree.get? parent = some (.directory holder)) (hname : IsName name)
      (hfree : tree.get? (parent ++ [name]) = none) :
      Alters tree source (tree.putDirectory (parent ++ [name]))
        (reported source tree parent fun id => ⟨id, .create, true, none, some name⟩) none
  | removed {location : Location} {directory : DirectoryId} (hne : location ≠ [])
      (hget : tree.get? location = some (.directory directory))
      (hempty : ∀ name, tree.get? (location ++ [name]) = none) :
      Alters tree source (tree.erase location)
        (reported source tree location (.onWatch · .deleteSelf) ++
          reported source tree location (.onWatch · .ignored)) (some location)
  | moved {parent target : Location} {name newName : Bytes} {directory holder : DirectoryId}
      (cookie : Nat) (hget : tree.get? (parent ++ [name]) = some (.directory directory))
      (htarget : tree.get? target = some (.directory holder)) (hout : ¬ parent ++ [name] <+: target)
      (hname : IsName newName) (hfree : tree.get? (target ++ [newName]) = none) :
      Alters tree source (tree.relocate (parent ++ [name]) (target ++ [newName]))
        (reported source tree parent (fun id => ⟨id, .movedFrom, true, some cookie, some name⟩) ++
          reported source tree target (fun id => ⟨id, .movedTo, true, some cookie, some newName⟩) ++
          reported source tree (parent ++ [name]) (.onWatch · .moveSelf)) (some (parent ++ [name]))

/-- However the time goes on, handling the queued events one after the other never fails and comes
to an end, in a state that satisfies `P`. -/
inductive Drains (tree : FileTree) (P : Tracker → Prop) : Tracker → Prop
  | done {t : Tracker} (hqueue : t.source.queue = []) (h : P t) : Drains tree P t
  | pump {t : Tracker} (hqueue : t.source.queue ≠ [])
      (hok : ∀ now, ∃ flow, (pump ⟨tree, now⟩ t).result = .ok flow)
      (hnext : ∀ now, Drains tree P (pump ⟨tree, now⟩ t).state) : Drains tree P t

theorem Drains.mono {P Q : Tracker → Prop} (h : Drains tree P t) (hPQ : ∀ u, P u → Q u) :
    Drains tree Q t := by
  induction h with
  | done hqueue h => exact .done hqueue (hPQ _ h)
  | pump hqueue hok _ ih => exact .pump hqueue hok ih

theorem Drains.of_cons {P : Tracker → Prop} (hqueue : t.source.queue = event :: rest)
    (h : ∀ now source, source.queue = rest →
      source.live = (if event.kind = .ignored then t.source.forget event.watch else t.source).live →
      source.nextId = t.source.nextId → source.refused = t.source.refused →
      (handle event).Ends ⟨tree, now⟩ { t with source } (fun _ u => Drains tree P u)
        fun _ _ => False) :
    Drains tree P t := by
  have hpump : ∀ now, Tracker.pump.Ends ⟨tree, now⟩ t (fun _ u => Drains tree P u)
    fun _ _ => False := by
    intro now
    rw [ends_pump]
    cases hnext : t.source.next? with
    | none => simp [Source.next?, hqueue] at hnext
    | some found =>
      obtain ⟨first, source⟩ := found
      obtain ⟨more, hfirst, hmore, hlive, hid, hrefused⟩ := Source.next?_eq_some hnext
      rw [hqueue] at hfirst
      obtain ⟨rfl, rfl⟩ := List.cons.inj hfirst
      exact h now source hmore hlive hid hrefused
  refine .pump (by simp [hqueue]) (fun now => ?_) fun now => ?_
  · cases hresult : (Tracker.pump ⟨tree, now⟩ t).result with
    | ok flow => exact ⟨flow, rfl⟩
    | error fault => exact ((hpump now).of_error hresult).elim
  · cases hresult : (Tracker.pump ⟨tree, now⟩ t).result with
    | ok flow => exact (hpump now).of_ok hresult
    | error fault => exact ((hpump now).of_error hresult).elim

theorem Drains.of_kept {P : Tracker → Prop} (hqueue : t.source.queue = event :: rest)
    (hkind : event.kind ≠ .ignored) (hsound : t.source.Sound)
    (h : ∀ now source, source.Sound → source.live = t.source.live → source.queue = rest →
      source.nextId = t.source.nextId → source.refused = t.source.refused →
      (handle event).Ends ⟨tree, now⟩ { t with source } (fun _ u => Drains tree P u)
        fun _ _ => False) :
    Drains tree P t := by
  apply Drains.of_cons hqueue
  intro now source hrest hlive hnextId hrefused
  rw [if_neg hkind] at hlive
  exact h now source (hsound.of_sublist (hlive ▸ List.Sublist.refl _) hnextId) hlive hrest
    hnextId hrefused

theorem Drains.of_ends {P : Tracker → Prop} (ids : List WatchId)
    (hqueue : t.source.queue = ids.map (.onWatch · .ignored)) (hquiet : t.departures = .empty)
    (habsent : ∀ id ∈ ids, ∀ entry ∈ t.table.entries, entry.id ≠ id)
    (hdead : ∀ id ∈ ids, ∀ watch ∈ t.source.live, watch.1 ≠ id) (hdraining : t.draining ⊆ ids)
    (h : ∀ source counts, source.live = t.source.live → source.queue = [] →
      source.nextId = t.source.nextId → P { t with source, counts, draining := [] }) :
    Drains tree P t := by
  induction ids generalizing t with
  | nil =>
    have hnil : t.draining = [] := List.subset_nil.mp hdraining
    refine .done hqueue ?_
    have ht := h t.source t.counts rfl hqueue rfl
    rwa [← hnil] at ht
  | cons id rest ih =>
    apply Drains.of_cons hqueue
    intro now source hrest hlive hnextId _
    apply (ends_handle_ignored (t := { t with source }) hquiet (habsent id (by simp))).imp
    intro _ u hu
    obtain ⟨counts, rfl⟩ := hu
    have hsame : source.live = t.source.live := by
      rw [hlive]
      change (t.source.forget id).live = t.source.live
      exact List.filter_eq_self.mpr fun watch hmem => by simpa using hdead id (by simp) watch hmem
    refine ih hrest hquiet (fun other hmem => habsent other (by simp [hmem]))
      (fun other hmem => hsame ▸ hdead other (by simp [hmem])) (fun other hmem => ?_)
      fun last counts hlast hempty hlastId => ?_
    · obtain ⟨hmem, hne⟩ := List.mem_filter.mp hmem
      exact (List.mem_cons.mp (hdraining hmem)).resolve_left (by simpa using hne)
    · exact h last counts (hlast.trans hsame) hempty (hlastId.trans hnextId)

end Reports

section Places

theorem reach_below {roots : Roots} (hroots : roots.StandIn tree) (hwf : tree.WellFormed)
    (hplace : IsPlace place) (hreach : roots.Reach (pathOf location)) (hlocation : IsPlace location)
    (hbelow : location <+: place) : roots.Reach (pathOf place) := by
  obtain ⟨root, hroot, habove⟩ := hreach
  obtain ⟨r, d, hpath, hget⟩ := hroots root hroot
  refine ⟨root, hroot, ?_⟩
  rw [hpath] at habove ⊢
  rw [isBelow_pathOf_iff hlocation (hwf.isPlace hget)] at habove
  exact (isBelow_pathOf_iff hplace (hwf.isPlace hget)).mpr (habove.trans hbelow)

theorem reach_iff {roots : Roots} (hroots : roots.StandIn tree) (hwf : tree.WellFormed)
    (hplace : IsPlace place) : roots.Reach (pathOf place) ↔ ∃ root ∈ roots.live,
      ∃ location directory, root.path = pathOf location ∧
        tree.get? location = some (.directory directory) ∧ location <+: place := by
  constructor
  · rintro ⟨root, hroot, hbelow⟩
    obtain ⟨r, d, hpath, hget⟩ := hroots root hroot
    rw [hpath, isBelow_pathOf_iff hplace (hwf.isPlace hget)] at hbelow
    exact ⟨root, hroot, r, d, hpath, hget, hbelow⟩
  · rintro ⟨root, hroot, r, d, hpath, hget, hbelow⟩
    refine ⟨root, hroot, ?_⟩
    rwa [hpath, isBelow_pathOf_iff hplace (hwf.isPlace hget)]

theorem not_reach_below {roots : Roots} (hroots : roots.StandIn tree) (hwf : tree.WellFormed)
    (hplace : IsPlace place) (hlocation : IsPlace location)
    (hreach : ¬ roots.Reach (pathOf location))
    (hnone : ∀ root ∈ roots.live, root.path.isBelow (pathOf location) = false)
    (hbelow : location <+: place) : ¬ roots.Reach (pathOf place) := by
  intro hreached
  obtain ⟨root, hroot, r, d, hpath, hget, habove⟩ := (reach_iff hroots hwf hplace).mp hreached
  rcases List.prefix_or_prefix_of_prefix habove hbelow with hprefix | hprefix
  · exact hreach ((reach_iff hroots hwf hlocation).mpr ⟨root, hroot, r, d, hpath, hget, hprefix⟩)
  · have hroot := hnone root hroot
    rw [hpath, (isBelow_pathOf_iff (hwf.isPlace hget) hlocation).mpr hprefix] at hroot
    exact Bool.false_ne_true hroot.symm

theorem reach_parent_of_free {roots : Roots} (hroots : roots.StandIn tree) (hwf : tree.WellFormed)
    (hfree : tree.get? (parent ++ [name]) = none) (hbelow : parent ++ [name] <+: place)
    (hplace : IsPlace place) (hreach : roots.Reach (pathOf place)) :
    roots.Reach (pathOf parent) := by
  obtain ⟨root, hroot, r, d, hpath, hget, habove⟩ := (reach_iff hroots hwf hplace).mp hreach
  have hparent : IsPlace parent := by
    obtain ⟨more, rfl⟩ := hbelow
    exact hplace.left.left
  refine (reach_iff hroots hwf hparent).mpr ⟨root, hroot, r, d, hpath, hget, ?_⟩
  rcases List.prefix_or_prefix_of_prefix habove hbelow with hprefix | hprefix
  · rcases List.prefix_concat_iff.mp hprefix with rfl | hprefix
    · rw [hfree] at hget
      exact absurd hget (by simp)
    · exact hprefix
  · exact absurd hprefix (hwf.not_prefix_of_free hfree hget)

theorem reported_of_not_reach (hwf : tree.WellFormed)
    (h : Tracks tree (fun location => t.roots.Reach (pathOf location)) t)
    (hget : tree.get? location = some (.directory directory))
    (hreach : ¬ t.roots.Reach (pathOf location)) (event : WatchId → Event) :
    reported t.source tree location event = [] := by
  have hwatch : t.source.watchOf? directory = none := by
    refine Source.watchOf?_eq_none_iff.mpr fun watch hmem heq => ?_
    obtain ⟨place, hentry, hplace⟩ := h.watch hmem
    rw [heq] at hplace
    obtain rfl := hwf.unique hget hplace
    obtain ⟨_, _, _, hheld⟩ := (h.held_iff hwf (hwf.isPlace hget)).mp ⟨_, hentry⟩
    exact hreach hheld
  simp [reported, hget, hwatch]

/-- What is reported where a root reaches is reported on the watch of the entry there. -/
theorem exists_reported (hwf : tree.WellFormed)
    (h : Tracks tree (fun location => t.roots.Reach (pathOf location)) t)
    (hshort : IsShort location) (hget : tree.get? location = some (.directory directory))
    (hreach : t.roots.Reach (pathOf location)) :
    ∃ id, ⟨id, pathOf location⟩ ∈ t.table.entries ∧ (id, directory) ∈ t.source.live ∧
      ∀ event : WatchId → Event, reported t.source tree location event = [event id] := by
  obtain ⟨id, hentry⟩ := h.covered hreach hshort hget
  have hlive := (h.watches_iff hwf).mpr ⟨location, hentry, hget⟩
  refine ⟨id, hentry, hlive, ?_⟩
  intro event
  simp [reported, hget, h.sound.watchOf?_eq_some_iff.mpr hlive]

end Places

end Tracker

end TreeWatch
