import TreeWatch.Source
import Mathlib.Data.List.Nodup

/-!
# The registry of watches

A source is a registry of live watches and a queue of events. Adding a watch finds the one that its
directory has or gives out a new number; in a sound registry no two watches share a number and no
two a directory, and every number was given out before.
-/

namespace TreeWatch

namespace Source

variable {source next : Source} {id : WatchId} {directory : DirectoryId} {path : Path}
  {tree : FileTree}

theorem isUnbound_ofNat (n : Nat) : (⟨n⟩ : WatchId).isUnbound = false := by
  simp [WatchId.isUnbound]

theorem isLive_iff : source.isLive id = true ↔ ∃ directory, (id, directory) ∈ source.live := by
  simp [isLive]

theorem watchOf?_eq_some (h : source.watchOf? directory = some id) :
    (id, directory) ∈ source.live := by
  obtain ⟨⟨found, other⟩, hfind, rfl⟩ := Option.map_eq_some_iff.mp h
  obtain rfl : other = directory := by simpa using List.find?_some hfind
  exact List.mem_of_find?_eq_some hfind

theorem watchOf?_eq_none_iff :
    source.watchOf? directory = none ↔ ∀ watch ∈ source.live, watch.2 ≠ directory := by
  simp [watchOf?]

theorem mem_live_forget {watch : WatchId × DirectoryId} :
    watch ∈ (source.forget id).live ↔ watch ∈ source.live ∧ watch.1 ≠ id := by
  simp [forget]

/-- With a new watch on a directory. -/
def enrolled (source : Source) (directory : DirectoryId) : Source :=
  { source with
    live := source.live ++ [(⟨source.nextId⟩, directory)]
    nextId := source.nextId + 1
    added := source.added + 1 }

/-- A watch is to be had exactly on a directory whose path is not refused. -/
theorem add_eq_ok_iff : source.add tree path = .ok (id, next) ↔
    path ∉ source.refused ∧ ∃ directory, tree.inspect path = .ok (.directory directory) ∧
      (source.watchOf? directory = some id ∧ next = source ∨
        source.watchOf? directory = none ∧ id = ⟨source.nextId⟩ ∧
        next = source.enrolled directory) := by
  unfold add
  by_cases hrefused : path ∈ source.refused
  · simp [hrefused]
  · rw [if_neg (by simpa using hrefused)]
    cases hinspect : tree.inspect path with
    | error error => simp
    | ok object =>
      cases object with
      | file content mode => simp
      | link target => simp
      | directory directory =>
        cases hwatch : source.watchOf? directory <;>
          simp [hrefused, hwatch, enrolled, eq_comm]

theorem ne_resetRefused_of_add {error : SourceError} (h : source.add tree path = .error error) :
    error ≠ .resetRefused := by
  rintro rfl
  unfold add at h
  split at h
  · cases h
  · split at h
    · cases h
    · split at h <;> cases h
    · cases h

theorem watchOf?_enrolled (h : source.watchOf? directory = none) :
    (source.enrolled directory).watchOf? directory = some ⟨source.nextId⟩ := by
  have hnone := watchOf?_eq_none_iff.mp h
  rw [watchOf?, enrolled, List.find?_append, List.find?_eq_none.mpr (by simpa using hnone)]
  simp

theorem add_again (h : source.add tree path = .ok (id, next)) :
    next.add tree path = .ok (id, next) := by
  obtain ⟨hrefused, directory, hinspect, ⟨hwatch, rfl⟩ | ⟨hwatch, rfl, rfl⟩⟩ := add_eq_ok_iff.mp h
  · exact h
  · exact add_eq_ok_iff.mpr ⟨hrefused, directory, hinspect, .inl ⟨watchOf?_enrolled hwatch, rfl⟩⟩

theorem live_subset_of_add (h : source.add tree path = .ok (id, next)) :
    source.live ⊆ next.live := by
  obtain ⟨-, directory, -, ⟨-, rfl⟩ | ⟨-, -, rfl⟩⟩ := add_eq_ok_iff.mp h
  · exact List.Subset.refl _
  · exact List.subset_append_left _ _

theorem mem_live_of_add (h : source.add tree path = .ok (id, next)) :
    ∃ directory, tree.inspect path = .ok (.directory directory) ∧ (id, directory) ∈ next.live := by
  obtain ⟨-, directory, hinspect, ⟨hwatch, rfl⟩ | ⟨-, rfl, rfl⟩⟩ := add_eq_ok_iff.mp h
  · exact ⟨directory, hinspect, watchOf?_eq_some hwatch⟩
  · exact ⟨directory, hinspect, List.mem_append_right _ (List.mem_singleton.mpr rfl)⟩

theorem remove_eq_ok_iff : source.remove id = .ok next ↔
    source.isLive id = true ∧
      next = { (source.forget id).push (.onWatch id .ignored) with removed := source.removed +
        1 } := by
  unfold remove
  by_cases hlive : source.isLive id = true
  · simp [hlive, eq_comm, forget]
  · simp [hlive]

/-- With some watches removed, one after the other: they end, and each end is announced in its
turn. -/
def without (source : Source) (ids : List WatchId) : Source :=
  { source with
    live := source.live.filter fun watch => !ids.contains watch.1
    queue := source.queue ++ ids.map fun id => .onWatch id .ignored
    removed := source.removed + ids.length }

@[simp] theorem without_nil (source : Source) : source.without [] = source := by
  simp [without]

theorem without_append (source : Source) (first second : List WatchId) :
    source.without (first ++ second) = (source.without first).without second := by
  have hlive : (source.live.filter fun watch => !(first ++ second).contains watch.1) =
      (source.live.filter fun watch => !first.contains watch.1).filter
        fun watch => !second.contains watch.1 := by
    rw [List.filter_filter]
    refine List.filter_congr fun watch _ => ?_
    rw [List.contains_append, Bool.not_or, Bool.and_comm]
  simp only [without, hlive, List.map_append, List.append_assoc, List.length_append, Nat.add_assoc]

theorem remove_of_isLive (h : source.isLive id = true) :
    source.remove id = .ok (source.without [id]) := by
  refine remove_eq_ok_iff.mpr ⟨h, ?_⟩
  simp [without, forget, push, bne, beq_eq_decide]

theorem isLive_without {ids : List WatchId} :
    (source.without ids).isLive id = (source.isLive id && !ids.contains id) := by
  rw [Bool.eq_iff_iff, Bool.and_eq_true, isLive_iff, isLive_iff]
  simp [without]

theorem reset_eq_ok_iff : source.reset = .ok next ↔
    source.refusesReset = false ∧
      next = { source with live := [], queue := [], resets := source.resets + 1 } := by
  unfold reset
  cases source.refusesReset <;> simp [eq_comm]

theorem next?_eq_none_iff : source.next? = none ↔ source.queue = [] := by
  unfold next?
  cases source.queue <;> simp

theorem next?_eq_some {event : Event} (h : source.next? = some (event, next)) :
    ∃ rest, source.queue = event :: rest ∧ next.queue = rest ∧
      next.live = (if event.kind = .ignored then source.forget event.watch else source).live ∧
      next.nextId = source.nextId ∧ next.refused = source.refused := by
  unfold next? at h
  cases hqueue : source.queue with
  | nil => simp [hqueue] at h
  | cons first rest =>
    simp only [hqueue, Option.some.injEq, Prod.mk.injEq] at h
    obtain ⟨rfl, rfl⟩ := h
    exact ⟨rest, by split <;> simp [forget]⟩

/-- An event that does not announce the end of its watch leaves the watches as they are, whether it
is taken from the queue or comes from elsewhere. -/
theorem registry_of_taken {event : Event} (hkind : event.kind ≠ .ignored)
    (h : next = source ∨ source.next? = some (event, next)) :
    next.live = source.live ∧ next.nextId = source.nextId ∧ next.refused = source.refused := by
  obtain rfl | h := h
  · exact ⟨rfl, rfl, rfl⟩
  · obtain ⟨-, -, -, hlive, hnextId, hrefused⟩ := next?_eq_some h
    rw [if_neg hkind] at hlive
    exact ⟨hlive, hnextId, hrefused⟩

theorem live_subset_of_next? {event : Event} (h : source.next? = some (event, next)) :
    next.live ⊆ source.live := by
  obtain ⟨rest, -, -, hlive, -, -⟩ := next?_eq_some h
  intro watch hwatch
  rw [hlive] at hwatch
  split at hwatch
  · exact (mem_live_forget.mp hwatch).1
  · exact hwatch

/-- A registry in which each watch has a number and a directory of its own. -/
structure Sound (source : Source) : Prop where
  ids : (source.live.map (·.1)).Nodup
  directories : (source.live.map (·.2)).Nodup
  issued : ∀ watch ∈ source.live, ∃ n : Nat, watch.1 = ⟨n⟩ ∧ n < source.nextId

namespace Sound

theorem of_live_eq_nil (h : source.live = []) : source.Sound :=
  ⟨by simp [h], by simp [h], by simp [h]⟩

theorem enrolled (h : source.Sound) (hwatch : source.watchOf? directory = none) :
    (source.enrolled directory).Sound where
  ids := by
    simp only [Source.enrolled, List.map_append, List.map_cons, List.map_nil]
    refine h.ids.append (by simp) ?_
    rw [List.disjoint_singleton]
    intro hmem
    obtain ⟨watch, hwatch, heq⟩ := List.mem_map.mp hmem
    obtain ⟨n, hn, hlt⟩ := h.issued watch hwatch
    rw [heq] at hn
    have : (source.nextId : Int) = n := congrArg WatchId.raw hn
    omega
  directories := by
    simp only [Source.enrolled, List.map_append, List.map_cons, List.map_nil]
    refine h.directories.append (by simp) ?_
    rw [List.disjoint_singleton]
    intro hmem
    obtain ⟨watch, hmem, heq⟩ := List.mem_map.mp hmem
    exact watchOf?_eq_none_iff.mp hwatch watch hmem heq
  issued watch hmem := by
    simp only [Source.enrolled, List.mem_append, List.mem_singleton] at hmem
    rcases hmem with hmem | rfl
    · obtain ⟨n, hn, hlt⟩ := h.issued watch hmem
      exact ⟨n, hn, Nat.lt_succ_of_lt hlt⟩
    · exact ⟨source.nextId, rfl, Nat.lt_succ_self _⟩

theorem add (h : source.Sound) (hadd : source.add tree path = .ok (id, next)) : next.Sound := by
  obtain ⟨-, directory, -, ⟨-, rfl⟩ | ⟨hwatch, -, rfl⟩⟩ := add_eq_ok_iff.mp hadd
  · exact h
  · exact h.enrolled hwatch

theorem isUnbound {watch : WatchId × DirectoryId} (h : source.Sound)
    (hwatch : watch ∈ source.live) :
    watch.1.isUnbound = false := by
  obtain ⟨n, hn, -⟩ := h.issued watch hwatch
  rw [hn]
  exact isUnbound_ofNat n

theorem of_sublist (h : source.Sound) (hlive : next.live.Sublist source.live)
    (hnext : next.nextId = source.nextId) : next.Sound where
  ids := h.ids.sublist (hlive.map _)
  directories := h.directories.sublist (hlive.map _)
  issued watch hmem := hnext ▸ h.issued watch (hlive.subset hmem)

theorem eq_of_id (h : source.Sound) {a b : DirectoryId} (ha : (id, a) ∈ source.live)
    (hb : (id, b) ∈ source.live) : a = b :=
  congrArg Prod.snd (List.inj_on_of_nodup_map h.ids ha hb rfl)

theorem eq_of_directory (h : source.Sound) {a b : WatchId} (ha : (a, directory) ∈ source.live)
    (hb : (b, directory) ∈ source.live) : a = b :=
  congrArg Prod.fst (List.inj_on_of_nodup_map h.directories ha hb rfl)

theorem watchOf?_eq_some_iff (h : source.Sound) :
    source.watchOf? directory = some id ↔ (id, directory) ∈ source.live := by
  refine ⟨watchOf?_eq_some, fun hmem => ?_⟩
  cases hwatch : source.watchOf? directory with
  | none => exact absurd rfl (watchOf?_eq_none_iff.mp hwatch _ hmem)
  | some other => rw [h.eq_of_directory (watchOf?_eq_some hwatch) hmem]

end Sound

end Source

end TreeWatch
