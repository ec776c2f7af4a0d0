import TreeWatch.FileTree.Change
import TreeWatch.Proofs.Path.Place
import Mathlib.Data.List.Induction

/-!
# Well-formed file trees

What every change keeps: objects stand in order and each once, each in a directory and under a name,
and no two directories share an identity. A tree is seen through its look-up from here on; each
change of a tree is said as what it does to that.
-/

namespace TreeWatch

namespace FileTree

variable {tree : FileTree} {location other source target : Location} {object : Object}

/-- A file tree in which everything has its place. -/
structure WellFormed (tree : FileTree) : Prop where
  sorted : tree.objects.Pairwise (·.1 < ·.1)
  nonroot : ∀ entry ∈ tree.objects, entry.1 ≠ []
  isPlace : ∀ {location object}, tree.get? location = some object → IsPlace location
  parent : ∀ {location name object}, tree.get? (location ++ [name]) = some object →
    ∃ directory, tree.get? location = some (.directory directory)
  known : ∀ {location directory}, tree.get? location = some (.directory directory) →
    directory < tree.nextId
  unique : ∀ {a b directory}, tree.get? a = some (.directory directory) →
    tree.get? b = some (.directory directory) → a = b

section Lookup

theorem get?_nil (tree : FileTree) : tree.get? [] = some (.directory rootId) := rfl

theorem eq_of_get?_directory {first second : DirectoryId}
    (h : tree.get? location = some (.directory first))
    (h' : tree.get? location = some (.directory second)) :
    first = second :=
  Object.directory.inj (Option.some.inj (h.symm.trans h'))

theorem get?_of_ne_nil (tree : FileTree) (h : location ≠ []) :
    tree.get? location = tree.objects.lookup location := by
  cases location with
  | nil => exact absurd rfl h
  | cons name rest => rfl

theorem lookup_insertSorted (objects : List (Location × Object)) :
    (insertSorted location object objects).lookup other =
      if other = location then some object else objects.lookup other := by
  induction objects with
  | nil => by_cases h : other = location <;> simp [insertSorted, h]
  | cons head rest ih =>
    unfold insertSorted
    by_cases h : other = location
    · subst other
      split
      · simp
      · next hne =>
        split
        · simp
        · have hk : (location == head.1) = false := beq_eq_false_iff_ne.mpr (Ne.symm hne)
          rw [List.lookup_cons, hk]
          simpa using ih
    · have hk : (other == location) = false := beq_eq_false_iff_ne.mpr h
      rw [if_neg h]
      split
      · next heq => rw [List.lookup_cons, List.lookup_cons, heq, hk]
      · split
        · rw [List.lookup_cons, hk]
        · rw [List.lookup_cons, List.lookup_cons, ih, if_neg h]

theorem lookup_filter (keep : Location → Bool) (other : Location)
    (objects : List (Location × Object)) :
    (objects.filter fun entry => keep entry.1).lookup other =
      if keep other then objects.lookup other else none := by
  induction objects with
  | nil => simp
  | cons head rest ih =>
    by_cases hhead : other = head.1
    · subst other
      cases hkeep : keep head.1 with
      | true =>
        rw [List.filter_cons, hkeep, if_pos rfl, List.lookup_cons_self, List.lookup_cons_self,
          if_pos rfl]
      | false => simpa [List.filter_cons, hkeep] using ih
    · have hk : (other == head.1) = false := beq_eq_false_iff_ne.mpr hhead
      rw [List.filter_cons, List.lookup_cons, hk]
      split
      · rw [List.lookup_cons, hk, ih]
      · exact ih

theorem get?_put (tree : FileTree) (h : location ≠ []) (object : Object) (other : Location) :
    (tree.put location object).get? other = if other = location then some object else tree.get?
      other := by
  cases other with
  | nil => rw [get?_nil, get?_nil, if_neg (Ne.symm h)]
  | cons name rest => exact lookup_insertSorted tree.objects

theorem get?_putDirectory (tree : FileTree) (h : location ≠ []) (other : Location) :
    (tree.putDirectory location).get? other =
      if other = location then some (.directory tree.nextId) else tree.get? other :=
  get?_put tree h _ other

theorem get?_erase (tree : FileTree) (h : location ≠ []) (other : Location) :
    (tree.erase location).get? other = if location <+: other then none else tree.get? other := by
  cases other with
  | nil => rw [get?_nil, get?_nil, if_neg (by simpa using h)]
  | cons name rest =>
    have hfilter := lookup_filter (fun key => !location.isPrefixOf key) (name :: rest) tree.objects
    refine hfilter.trans ?_
    simp only [← List.isPrefixOf_iff_prefix]
    cases location.isPrefixOf (name :: rest) <;> rfl

end Lookup

section Order

theorem location_trichotomy (a b : Location) : a < b ∨ a = b ∨ b < a := by
  have : Std.Trichotomous (fun x y : UInt8 => x < y) :=
    ⟨fun x y hxy hyx => UInt8.le_antisymm (UInt8.not_lt.mp hyx) (UInt8.not_lt.mp hxy)⟩
  by_cases h : b < a
  · exact .inr (.inr h)
  · rcases List.le_iff_lt_or_eq.mp h with h | h
    · exact .inl h
    · exact .inr (.inl h)

theorem mem_insertSorted {objects : List (Location × Object)} {entry : Location × Object}
    (h : entry ∈ insertSorted location object objects) :
    entry = (location, object) ∨ entry ∈ objects := by
  induction objects with
  | nil => exact .inl (by simpa [insertSorted] using h)
  | cons head rest ih =>
    unfold insertSorted at h
    split at h
    · rcases List.mem_cons.mp h with h | h
      · exact .inl h
      · exact .inr (by simp [h])
    · split at h
      · rcases List.mem_cons.mp h with h | h
        · exact .inl h
        · exact .inr h
      · rcases List.mem_cons.mp h with h | h
        · exact .inr (by simp [h])
        · rcases ih h with h | h
          · exact .inl h
          · exact .inr (by simp [h])

theorem sorted_insertSorted {objects : List (Location × Object)}
    (h : objects.Pairwise (·.1 < ·.1)) :
    (insertSorted location object objects).Pairwise (·.1 < ·.1) := by
  induction objects with
  | nil => simp [insertSorted]
  | cons head rest ih =>
    obtain ⟨hhead, hrest⟩ := List.pairwise_cons.mp h
    unfold insertSorted
    split
    · next heq => exact List.pairwise_cons.mpr ⟨fun entry he => heq ▸ hhead entry he, hrest⟩
    · next hne =>
      split
      · next hlt =>
        refine List.pairwise_cons.mpr ⟨fun entry he => ?_, h⟩
        rcases List.mem_cons.mp he with rfl | he
        · exact hlt
        · exact List.lt_trans hlt (hhead entry he)
      · next hge =>
        have hlt : head.1 < location := by
          rcases location_trichotomy head.1 location with h | h | h
          · exact h
          · exact absurd h hne
          · exact absurd h hge
        refine List.pairwise_cons.mpr ⟨fun entry he => ?_, ih hrest⟩
        rcases mem_insertSorted he with rfl | he
        · exact hlt
        · exact hhead entry he

end Order

namespace WellFormed

theorem mem_objects_iff (h : tree.WellFormed) :
    (location, object) ∈ tree.objects ↔ location ≠ [] ∧ tree.get? location = some object := by
  constructor
  · intro hmem
    have hne := h.nonroot _ hmem
    refine ⟨hne, ?_⟩
    rw [get?_of_ne_nil tree hne]
    obtain ⟨front, back, hsplit⟩ := List.append_of_mem hmem
    refine List.lookup_eq_some_iff.mpr ⟨front, back, hsplit, fun entry hentry => ?_⟩
    have hsorted := h.sorted
    rw [hsplit, List.pairwise_append] at hsorted
    have hlt := hsorted.2.2 entry hentry (location, object) (by simp)
    rw [bne_iff_ne]
    rintro rfl
    exact List.lt_irrefl _ hlt
  · rintro ⟨hne, hget⟩
    rw [get?_of_ne_nil tree hne] at hget
    obtain ⟨front, back, hsplit, -⟩ := List.lookup_eq_some_iff.mp hget
    simp [hsplit]

theorem prefix_isDirectory (h : tree.WellFormed) {front back : Location} (hback : back ≠ [])
    (hget : tree.get? (front ++ back) = some object) :
    ∃ directory, tree.get? front = some (.directory directory) := by
  induction back using List.reverseRecOn generalizing object with
  | nil => exact absurd rfl hback
  | append_singleton back name ih =>
    rw [← List.append_assoc] at hget
    obtain ⟨directory, hparent⟩ := h.parent hget
    by_cases hb : back = []
    · subst back
      exact ⟨directory, by simpa using hparent⟩
    · exact ih hb hparent

theorem exists_directory_above (h : tree.WellFormed) {front back : Location}
    {directory : DirectoryId} (hget : tree.get? (front ++ back) = some (.directory directory)) :
    ∃ above, tree.get? front = some (.directory above) := by
  by_cases hback : back = []
  · subst hback
    exact ⟨directory, by rwa [List.append_nil] at hget⟩
  · exact h.prefix_isDirectory hback hget

theorem get?_append_of_not_directory (h : tree.WellFormed) {more : Location} (hmore : more ≠ [])
    (hnot : ∀ directory, tree.get? location ≠ some (.directory directory)) :
    tree.get? (location ++ more) = none := by
  by_contra hsome
  obtain ⟨object, hget⟩ := Option.ne_none_iff_exists'.mp hsome
  obtain ⟨directory, hdirectory⟩ := h.prefix_isDirectory hmore hget
  exact hnot directory hdirectory

theorem get?_append_eq_none (h : tree.WellFormed) (hfree : tree.get? location = none)
    (more : Location) : tree.get? (location ++ more) = none := by
  by_cases hmore : more = []
  · rw [hmore, List.append_nil, hfree]
  · exact h.get?_append_of_not_directory hmore (by simp [hfree])

theorem ne_nil_of_free (hfree : tree.get? location = none) : location ≠ [] := by
  rintro rfl
  simp [get?_nil] at hfree

theorem empty : FileTree.empty.WellFormed where
  sorted := by simp [FileTree.empty]
  nonroot := by simp [FileTree.empty]
  isPlace {location object} h := by
    cases location with
    | nil => exact IsPlace.nil
    | cons name rest => simp [FileTree.empty, get?] at h
  parent {location name object} h := by
    rw [get?_of_ne_nil _ (by simp)] at h
    simp [FileTree.empty] at h
  known {location directory} h := by
    cases location with
    | nil => simp_all [get?_nil, FileTree.empty, rootId]
    | cons name rest => simp [FileTree.empty, get?] at h
  unique {a b directory} ha hb := by
    cases a with
    | cons name rest => simp [FileTree.empty, get?] at ha
    | nil =>
      cases b with
      | nil => rfl
      | cons name rest => simp [FileTree.empty, get?] at hb

theorem get?_put_eq_some_iff {found : Object} (hfree : tree.get? location = none) :
    (tree.put location object).get? other = some found ↔
      other = location ∧ found = object ∨ tree.get? other = some found := by
  rw [get?_put tree (ne_nil_of_free hfree)]
  split
  · next heq => simp [heq, hfree, eq_comm]
  · next hother => simp [hother]

/-- An object put under a name into a directory, at a free place, leaves a well-formed tree. -/
theorem put (h : tree.WellFormed) {directory : DirectoryId} {name : Bytes}
    (hparent : tree.get? location = some (.directory directory)) (hname : IsName name)
    (hfree : tree.get? (location ++ [name]) = none) {next : DirectoryId}
    (hnext : tree.nextId ≤ next)
    (hnew : ∀ id, object = .directory id → tree.nextId ≤ id ∧ id < next) :
    ({ tree.put (location ++ [name]) object with nextId := next } : FileTree).WellFormed := by
  have hget {other found} := @get?_put_eq_some_iff tree _ other object found hfree
  constructor
  case sorted => exact sorted_insertSorted h.sorted
  case nonroot =>
    intro entry hentry
    rcases mem_insertSorted hentry with rfl | hentry
    · exact ne_nil_of_free hfree
    · exact h.nonroot entry hentry
  case isPlace =>
    intro other found hfound
    rcases hget.mp hfound with ⟨rfl, -⟩ | hold
    · exact (h.isPlace hparent).concat hname
    · exact h.isPlace hold
  case parent =>
    intro other step found hfound
    rcases hget.mp hfound with ⟨heq, -⟩ | hold
    · obtain rfl := List.append_inj_left' heq rfl
      exact ⟨directory, hget.mpr (.inr hparent)⟩
    · obtain ⟨id, hid⟩ := h.parent hold
      exact ⟨id, hget.mpr (.inr hid)⟩
  case known =>
    intro other id hfound
    rcases hget.mp hfound with ⟨-, hid⟩ | hold
    · exact (hnew id hid.symm).2
    · exact Nat.lt_of_lt_of_le (h.known hold) hnext
  case unique =>
    intro a b id ha hb
    rcases hget.mp ha with ⟨rfl, hid⟩ | hold
    · rcases hget.mp hb with ⟨rfl, -⟩ | hold'
      · rfl
      · exact absurd (h.known hold') (Nat.not_lt.mpr (hnew id hid.symm).1)
    · rcases hget.mp hb with ⟨rfl, hid⟩ | hold'
      · exact absurd (h.known hold) (Nat.not_lt.mpr (hnew id hid.symm).1)
      · exact h.unique hold hold'

theorem putDirectory (h : tree.WellFormed) {directory : DirectoryId} {name : Bytes}
    (hparent : tree.get? location = some (.directory directory)) (hname : IsName name)
    (hfree : tree.get? (location ++ [name]) = none) :
    (tree.putDirectory (location ++ [name])).WellFormed :=
  h.put hparent hname hfree (Nat.le_succ _) fun id hid => by
    obtain rfl := Object.directory.inj hid
    exact ⟨Nat.le_refl _, Nat.lt_succ_self _⟩

theorem erase (h : tree.WellFormed) (hne : location ≠ []) : (tree.erase location).WellFormed := by
  have hkept : ∀ {other found}, (tree.erase location).get? other = some found →
      ¬ location <+: other ∧ tree.get? other = some found := by
    intro other found hfound
    rw [get?_erase tree hne] at hfound
    split at hfound
    · exact absurd hfound (by simp)
    · next hp => exact ⟨hp, hfound⟩
  refine ⟨h.sorted.filter _, fun entry hentry => h.nonroot entry (List.mem_of_mem_filter hentry),
    fun hfound => h.isPlace (hkept hfound).2, ?_,
    fun hfound => h.known (hkept hfound).2, fun ha hb => h.unique (hkept ha).2 (hkept hb).2⟩
  intro other name found hfound
  obtain ⟨hp, hold⟩ := hkept hfound
  obtain ⟨id, hparent⟩ := h.parent hold
  refine ⟨id, ?_⟩
  rw [get?_erase tree hne, if_neg fun hother => hp (hother.trans (List.prefix_append other [name])),
    hparent]

end WellFormed

section Relocation

theorem get?_foldl_put (htarget : target ≠ []) (moved : List (Location × Object)) (tree : FileTree)
    (hbelow : ∀ entry ∈ moved, source <+: entry.1) (hnodup : (moved.map (·.1)).Nodup)
    (other : Location) :
    (moved.foldl (fun tree entry => tree.put (target ++ entry.1.drop source.length) entry.2)
        tree).get? other =
      if target <+: other then
        (moved.lookup (source ++ other.drop target.length)).or (tree.get? other)
      else tree.get? other := by
  induction moved generalizing tree with
  | nil => simp
  | cons head rest ih =>
    obtain ⟨tail, htail⟩ := hbelow head (by simp)
    obtain ⟨hhead, hrest⟩ := List.nodup_cons.mp hnodup
    have hdrop : head.1.drop source.length = tail := by rw [← htail, List.drop_left]
    rw [List.foldl_cons, ih _ (fun entry he => hbelow entry (by simp [he])) hrest, hdrop,
      get?_put tree (by simp [htarget])]
    by_cases hp : target <+: other
    · obtain ⟨more, rfl⟩ := hp
      rw [if_pos (List.prefix_append target more), if_pos (List.prefix_append target more),
        List.drop_left, List.lookup_cons]
      by_cases heq : more = tail
      · subst more
        have hnone : rest.lookup (source ++ tail) = none := by
          rw [List.lookup_eq_none_iff]
          intro entry he
          rw [bne_iff_ne, htail]
          intro hkey
          exact hhead (List.mem_map.mpr ⟨entry, he, hkey.symm⟩)
        rw [hnone, htail]
        simp
      · have hk : (source ++ more == head.1) = false := by
          rw [beq_eq_false_iff_ne, ← htail]
          simpa using heq
        rw [hk, if_neg (by simpa using heq)]
    · rw [if_neg hp, if_neg hp, if_neg]
      rintro rfl
      exact hp (List.prefix_append target tail)

/-- What is found in a tree after a move: below the target what was below the source, nothing below
the source, and elsewhere what was there before. -/
theorem get?_relocate (h : tree.WellFormed) (hsource : source ≠ [])
    (hfree : tree.get? target = none) (other : Location) :
    (tree.relocate source target).get? other =
      if target <+: other then tree.get? (source ++ other.drop target.length)
      else if source <+: other then none else tree.get? other := by
  have htarget := WellFormed.ne_nil_of_free hfree
  have hkeys : (tree.objects.map (·.1)).Nodup := by
    rw [List.Nodup, List.pairwise_map]
    refine h.sorted.imp fun {a b} hlt heq => ?_
    rw [heq] at hlt
    exact List.lt_irrefl _ hlt
  have hlookup := lookup_filter (fun key => source.isPrefixOf key)
    (source ++ other.drop target.length) tree.objects
  rw [if_pos (by simp), ← get?_of_ne_nil tree (by simp [hsource])] at hlookup
  rw [relocate, get?_foldl_put htarget _ _ (by simp) (hkeys.sublist (List.filter_sublist.map _)),
    hlookup, get?_erase tree hsource]
  split
  · next hp =>
    obtain ⟨more, rfl⟩ := hp
    rw [List.drop_left, h.get?_append_eq_none hfree more]
    simp
  · rfl

theorem sorted_foldl_put (place : Location → Location) (moved : List (Location × Object))
    (hplace : ∀ location, place location ≠ []) (tree : FileTree)
    (hsorted : tree.objects.Pairwise (·.1 < ·.1)) (hroot : ∀ entry ∈ tree.objects, entry.1 ≠ []) :
    let next := moved.foldl (fun tree entry => tree.put (place entry.1) entry.2) tree
    next.objects.Pairwise (·.1 < ·.1) ∧ (∀ entry ∈ next.objects, entry.1 ≠ []) ∧
      next.nextId = tree.nextId := by
  induction moved generalizing tree with
  | nil => exact ⟨hsorted, hroot, rfl⟩
  | cons head rest ih =>
    apply ih (tree.put (place head.1) head.2) (sorted_insertSorted hsorted)
    intro entry hentry
    rcases mem_insertSorted hentry with rfl | hentry
    · exact hplace head.1
    · exact hroot entry hentry

theorem get?_relocate_cases (h : tree.WellFormed) (hsource : source ≠ [])
    (hfree : tree.get? target = none)
    (hfound : (tree.relocate source target).get? other = some object) :
    (∃ more, other = target ++ more ∧ tree.get? (source ++ more) = some object) ∨
      (¬ target <+: other ∧ ¬ source <+: other ∧ tree.get? other = some object) := by
  rw [get?_relocate h hsource hfree] at hfound
  split at hfound
  · next hbelow =>
    obtain ⟨more, rfl⟩ := hbelow
    rw [List.drop_left] at hfound
    exact .inl ⟨more, rfl, hfound⟩
  · next hnot =>
    split at hfound
    · exact absurd hfound (by simp)
    · next hapart => exact .inr ⟨hnot, hapart, hfound⟩

theorem get?_relocate_of_below (h : tree.WellFormed) (hsource : source ≠ [])
    (hfree : tree.get? target = none) (more : Location) :
    (tree.relocate source target).get? (target ++ more) = tree.get? (source ++ more) := by
  rw [get?_relocate h hsource hfree, if_pos (List.prefix_append _ _), List.drop_left]

theorem get?_relocate_of_apart (h : tree.WellFormed) (hsource : source ≠ [])
    (hfree : tree.get? target = none) (htarget : ¬ target <+: other) (hapart : ¬ source <+: other) :
    (tree.relocate source target).get? other = tree.get? other := by
  rw [get?_relocate h hsource hfree, if_neg htarget, if_neg hapart]

namespace WellFormed

theorem parent_relocate (h : tree.WellFormed) {directory : DirectoryId} {name step : Bytes}
    (hsource : source ≠ []) (hparent : tree.get? location = some (.directory directory))
    (hfree : tree.get? (location ++ [name]) = none) (hout : ¬ source <+: location)
    (hfound : (tree.relocate source (location ++ [name])).get? (other ++ [step]) = some object) :
    ∃ directory, (tree.relocate source (location ++ [name])).get? other =
      some (.directory directory) := by
  rcases get?_relocate_cases h hsource hfree hfound with ⟨more, heq, hold⟩ | ⟨hnot, hapart, hold⟩
  · rcases List.eq_nil_or_concat more with rfl | ⟨init, last, rfl⟩
    · obtain rfl := List.append_inj_left' (heq.trans (List.append_nil _)) rfl
      have hlonger : ¬ other ++ [name] <+: other := by
        intro hbelow
        have hle := hbelow.length_le
        rw [List.length_append, List.length_singleton] at hle
        omega
      exact ⟨directory, (get?_relocate_of_apart h hsource hfree hlonger hout).trans hparent⟩
    · rw [List.concat_eq_append, ← List.append_assoc] at heq hold
      obtain rfl := List.append_inj_left' heq rfl
      obtain ⟨id, hid⟩ := h.parent hold
      exact ⟨id, (get?_relocate_of_below h hsource hfree init).trans hid⟩
  · obtain ⟨id, hid⟩ := h.parent hold
    have hnot' : ¬ location ++ [name] <+: other := fun hbelow =>
      hnot (hbelow.trans (List.prefix_append _ _))
    have hapart' : ¬ source <+: other :=
      fun hbelow => hapart (hbelow.trans (List.prefix_append _ _))
    exact ⟨id, (get?_relocate_of_apart h hsource hfree hnot' hapart').trans hid⟩

/-- A move to a free place in a directory that is not moved itself leaves a well-formed tree. -/
theorem relocate (h : tree.WellFormed) {directory : DirectoryId} {name : Bytes}
    (hsource : source ≠ []) (hparent : tree.get? location = some (.directory directory))
    (hname : IsName name) (hfree : tree.get? (location ++ [name]) = none)
    (hout : ¬ source <+: location) :
    (tree.relocate source (location ++ [name])).WellFormed := by
  have horigin {other : Location} {found : Object} := @get?_relocate_cases tree other source
    (location ++ [name]) found h hsource hfree
  obtain ⟨hsorted, hroot, hnext⟩ := sorted_foldl_put
    (fun key => location ++ [name] ++ key.drop source.length)
    (tree.objects.filter fun entry => source.isPrefixOf entry.1) (by simp) (tree.erase source)
    (h.erase hsource).sorted (h.erase hsource).nonroot
  constructor
  case sorted => exact hsorted
  case nonroot => exact hroot
  case isPlace =>
    intro other found hfound
    rcases horigin hfound with ⟨more, rfl, hold⟩ | ⟨-, -, hold⟩
    · exact ((h.isPlace hparent).concat hname).append (h.isPlace hold).right
    · exact h.isPlace hold
  case parent => exact h.parent_relocate hsource hparent hfree hout
  case known =>
    intro other id hfound
    rw [FileTree.relocate, hnext]
    rcases horigin hfound with ⟨more, -, hold⟩ | ⟨-, -, hold⟩
    · exact h.known hold
    · exact h.known hold
  case unique =>
    intro a b id ha hb
    rcases horigin ha with ⟨more, rfl, hold⟩ | ⟨-, hapart, hold⟩
    · rcases horigin hb with ⟨more', rfl, hold'⟩ | ⟨-, hapart, hold'⟩
      · rw [List.append_cancel_left (h.unique hold hold')]
      · exact absurd (h.unique hold hold' ▸ List.prefix_append source more) hapart
    · rcases horigin hb with ⟨more', rfl, hold'⟩ | ⟨-, -, hold'⟩
      · exact absurd (h.unique hold' hold ▸ List.prefix_append source more') hapart
      · exact h.unique hold hold'

end WellFormed

end Relocation

end FileTree

end TreeWatch
