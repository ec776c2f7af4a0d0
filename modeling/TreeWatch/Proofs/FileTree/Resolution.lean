import TreeWatch.Proofs.FileTree.Finding
import TreeWatch.Proofs.FileTree.WellFormed

/-!
# Following the path of a place

Where no link stands on the way, following the path of a place leads to that place: what is found
there is what the tree holds there, and nothing is found if it holds nothing. A walk from a
directory meets the directories at and below it under the paths of their places.
-/

namespace TreeWatch

namespace FileTree

variable {tree : FileTree} {location : Location} {object : Object}

/-- No link has to be crossed on the way to a place. -/
def LinkFree (tree : FileTree) (location : Location) : Prop :=
  ∀ front back, location = front ++ back → back ≠ [] →
    ∀ target, tree.get? front ≠ some (.link target)

theorem WellFormed.linkFree (h : tree.WellFormed) (hget : tree.get? location = some object) :
    tree.LinkFree location := by
  rintro front back rfl hback target hlink
  obtain ⟨directory, hdir⟩ := h.prefix_isDirectory hback hget
  rw [hlink] at hdir
  exact absurd (Option.some.inj hdir) (by simp)

/-- Following steps from a directory, links in between absent, ends at the object they name or finds
nothing. -/
theorem advance_of_linkFree (hwf : tree.WellFormed) (steps : List Bytes) (here : Location)
    (hsteps : IsPlace steps) (hlinks : tree.LinkFree (here ++ steps)) :
    match tree.get? (here ++ steps) with
    | some object => tree.advance false here steps = .reached (.object (here ++ steps) object)
    | none => (∃ error, tree.advance false here steps = .refused error) ∨
        ∃ directory name, tree.advance false here steps = .reached (.free directory name) := by
  induction steps generalizing here with
  | nil =>
    rw [List.append_nil]
    cases hget : tree.get? here with
    | some object => simp [advance, hget]
    | none => exact .inl ⟨.noEntry, by simp [advance, hget]⟩
  | cons step rest ih =>
    have hname := hsteps step (by simp)
    have hrest : IsPlace rest := fun name hmem => hsteps name (by simp [hmem])
    have happend : here ++ step :: rest = here ++ [step] ++ rest := by simp
    have hlength : ¬ nameMax < step.length := Nat.not_lt.mpr hname.length_le
    have hnext := ih (here ++ [step]) hrest (happend ▸ hlinks)
    rw [advance, if_neg hname.ne_dot, if_neg hname.ne_dotDot, if_neg hlength, happend]
    cases hstep : tree.get? (here ++ [step]) with
    | none =>
      rw [hwf.get?_append_eq_none hstep rest]
      by_cases hnil : rest = []
      · exact .inr ⟨here, step, by simp [hnil]⟩
      · exact .inl ⟨.noEntry, by simp [hnil]⟩
    | some found =>
      by_cases hnil : rest = []
      · subst rest
        rw [List.append_nil] at hnext ⊢
        rw [hstep] at hnext ⊢
        cases found with
        | directory id => exact hnext
        | file content mode => simp
        | link target => simp
      · cases found with
        | directory id => exact hnext
        | file content mode =>
          rw [hwf.get?_append_of_not_directory hnil (by simp [hstep])]
          exact .inl ⟨.notDirectory, by simp [hnil]⟩
        | link target => exact absurd hstep (hlinks _ rest happend hnil target)

theorem get?_of_advance {followLast : Bool} {here : Location} {steps : List Bytes}
    (h : tree.advance followLast here steps = .reached (.object location object)) :
    tree.get? location = some object := by
  fun_induction advance tree followLast here steps with
  | case1 here found hget =>
    injection h with h
    injection h with hlocation hobject
    rw [← hlocation, ← hobject, hget]
  | case2 => simp at h
  | case3 here rest ih => exact ih h
  | case4 here rest hdot ih => exact ih h
  | case5 => simp at h
  | case6 => simp at h
  | case7 => simp at h
  | case8 here step rest hdot hdotDot hlength directory hget ih => exact ih h
  | case9 here step hdot hdotDot hlength content mode hget =>
    injection h with h
    injection h with hlocation hobject
    rw [← hlocation, ← hobject, hget]
  | case10 => simp at h
  | case11 here step rest hdot hdotDot hlength target hget =>
    injection h with h
    injection h with hlocation hobject
    rw [← hlocation, ← hobject, hget]
  | case12 => simp at h

theorem get?_of_follow {followLast : Bool} {links : Nat} {here : Location} {steps : List Bytes}
    (h : tree.follow followLast links here steps = .ok (.object location object)) :
    tree.get? location = some object := by
  induction links generalizing here steps with
  | zero =>
    unfold follow at h
    split at h
    · next what hadvance => exact get?_of_advance (hadvance.trans (congrArg _ (Except.ok.inj h)))
    · exact absurd h (by simp)
    · exact absurd h (by simp)
  | succ links ih =>
    unfold follow at h
    split at h
    · next what hadvance => exact get?_of_advance (hadvance.trans (congrArg _ (Except.ok.inj h)))
    · exact absurd h (by simp)
    · simp only at h
      split at h
      · exact absurd h (by simp)
      · exact ih h

theorem get?_of_find {followLast : Bool} {path : Path}
    (h : tree.find followLast path = .ok (location, object)) : tree.get? location = some object :=
  get?_of_follow (find_eq_ok_iff.mp h).2.2.2

theorem stepsOf_pathOf (h : IsPlace location) (hne : location ≠ []) :
    stepsOf (pathOf location) = location := by
  rw [stepsOf, segments_pathOf h, if_neg hne, if_neg (getLast?_bytes_pathOf h hne), List.append_nil,
    List.filter_cons_of_neg (by simp), List.filter_eq_self]
  intro name hname
  simpa using (h name hname).ne_nil

theorem noNul_pathOf (h : IsPlace location) : (pathOf location).bytes.contains 0 = false := by
  rw [bytes_pathOf, List.contains_cons]
  have hjoin : ∀ names : Location, IsPlace names → 0 ∉ joinWith slash names := by
    intro names hnames
    induction names with
    | nil => simp [joinWith]
    | cons name rest ih =>
      have hname := (hnames name (by simp)).noNul
      by_cases hrest : rest = []
      · subst rest
        exact hname
      · rw [joinWith_cons slash name hrest]
        have := ih fun other hother => hnames other (by simp [hother])
        simp only [List.mem_append, List.mem_cons, not_or]
        exact ⟨hname, by decide, this⟩
  simpa [slash] using hjoin location h

/-- The path of a place leads to what the tree holds at the place, and to nothing else. -/
theorem find_pathOf (hwf : tree.WellFormed) (hplace : IsPlace location) (hshort : IsShort location)
    (hlinks : tree.LinkFree location) :
    (tree.find false (pathOf location)).toOption = (tree.get? location).map (location, ·) := by
  have hreach : tree.reach false (pathOf location) =
      tree.follow false linkLimit [] (stepsOf (pathOf location)) := by
    rw [reach, noNul_pathOf hplace, if_neg (by simp), if_neg (by simp [Path.isEmpty, bytes_pathOf]),
      if_neg (Nat.not_le.mpr hshort)]
  rw [find, hreach]
  by_cases hnil : location = []
  · subst location
    simp [stepsOf, segments_pathOf hplace, bytes_pathOf, joinWith, follow, advance, get?_nil,
      Except.toOption]
  · rw [stepsOf_pathOf hplace hnil, follow]
    have hadvance := advance_of_linkFree hwf location [] hplace hlinks
    rw [List.nil_append] at hadvance
    cases hget : tree.get? location with
    | some object =>
      rw [hget] at hadvance
      rw [hadvance]
      rfl
    | none =>
      rw [hget] at hadvance
      rcases hadvance with ⟨error, hadvance⟩ | ⟨directory, name, hadvance⟩
      · rw [hadvance]
        rfl
      · rw [hadvance]
        rfl

theorem find_pathOf_of_long (hplace : IsPlace location) (hlong : ¬ IsShort location) :
    tree.find false (pathOf location) = .error .nameTooLong := by
  rw [find, reach, noNul_pathOf hplace, if_neg (by simp),
    if_neg (by simp [Path.isEmpty, bytes_pathOf]), if_pos (Nat.not_lt.mp hlong)]

theorem find_pathOf_of_get? (hwf : tree.WellFormed) (hshort : IsShort location)
    (hget : tree.get? location = some object) :
    tree.find false (pathOf location) = .ok (location, object) := by
  have hfind := find_pathOf hwf (hwf.isPlace hget) hshort (hwf.linkFree hget)
  rw [hget, Option.map_some] at hfind
  cases h : tree.find false (pathOf location) with
  | error error => simp [h, Except.toOption] at hfind
  | ok found => simpa [h, Except.toOption] using hfind

theorem inspect_pathOf_eq_ok_iff (hwf : tree.WellFormed) (hplace : IsPlace location)
    (hlinks : tree.LinkFree location) :
    tree.inspect (pathOf location) = .ok object ↔
      IsShort location ∧ tree.get? location = some object := by
  rw [inspect_eq_ok_iff]
  constructor
  · rintro ⟨found, hfind⟩
    have hshort : IsShort location := (find_eq_ok_iff.mp hfind).2.2.1
    have hheld := find_pathOf hwf hplace hshort hlinks
    rw [hfind] at hheld
    obtain ⟨_, hget, hpair⟩ := Option.map_eq_some_iff.mp hheld.symm
    obtain ⟨-, rfl⟩ := Prod.mk.inj hpair
    exact ⟨hshort, hget⟩
  · rintro ⟨hshort, hget⟩
    exact ⟨location, find_pathOf_of_get? hwf hshort hget⟩

theorem isDirectory_pathOf_iff (hwf : tree.WellFormed) (hplace : IsPlace location)
    (hlinks : tree.LinkFree location) :
    tree.isDirectory (pathOf location) = true ↔
      IsShort location ∧ ∃ directory, tree.get? location = some (.directory directory) := by
  simp only [isDirectory_iff, inspect_pathOf_eq_ok_iff hwf hplace hlinks, exists_and_left]

section Walk

theorem mem_below_iff (hwf : tree.WellFormed) {names : Location} :
    (names, object) ∈ tree.below location ↔
      names ≠ [] ∧ tree.get? (location ++ names) = some object := by
  rw [below, List.mem_filterMap]
  constructor
  · rintro ⟨⟨key, found⟩, hmem, hentry⟩
    split at hentry
    · next hp =>
      simp only [Bool.and_eq_true, List.isPrefixOf_iff_prefix, decide_eq_true_eq] at hp
      obtain ⟨⟨more, rfl⟩, hlt⟩ := hp
      simp only [List.drop_left, Option.some.injEq, Prod.mk.injEq] at hentry
      obtain ⟨rfl, rfl⟩ := hentry
      refine ⟨?_, (hwf.mem_objects_iff.mp hmem).2⟩
      intro hnil
      simp [hnil] at hlt
    · exact absurd hentry (by simp)
  · rintro ⟨hne, hget⟩
    refine ⟨(location ++ names, object), hwf.mem_objects_iff.mpr ⟨by simp [hne], hget⟩, ?_⟩
    have hlt : 0 < names.length := List.length_pos_of_ne_nil hne
    simp [hlt]

theorem entry_mem_directoryItems_iff {path other : Path} :
    .entry other true ∈ directoryItems path ↔ other = path := by
  unfold directoryItems
  split <;> simp

theorem exists_below_of_mem_walkBelow {start path : Path}
    (hmem : .entry path true ∈ tree.walkBelow start location) :
    ∃ names directory, path = walkPath start names ∧
      (names, .directory directory) ∈ tree.below location := by
  obtain ⟨⟨names, object⟩, hentry, hitem⟩ := List.mem_flatMap.mp hmem
  split at hitem
  · exact absurd hitem (by simp)
  · split at hitem
    · next hdir =>
      cases object with
      | directory id => exact ⟨names, id, entry_mem_directoryItems_iff.mp hitem, hentry⟩
      | file content mode => exact absurd hdir (by simp [Object.isDirectory])
      | link target => exact absurd hdir (by simp [Object.isDirectory])
    · exact absurd hitem (by simp)

theorem exists_of_mem_walkBelow (hwf : tree.WellFormed) {start path : Path}
    (hmem : .entry path true ∈ tree.walkBelow start location) :
    ∃ names directory, path = walkPath start names ∧
      tree.get? (location ++ names) = some (.directory directory) := by
  obtain ⟨names, directory, hpath, hbelow⟩ := exists_below_of_mem_walkBelow hmem
  exact ⟨names, directory, hpath, ((mem_below_iff hwf).mp hbelow).2⟩

theorem eq_or_mem_walkBelow_of_mem_walk {start path : Path}
    (hmem : .entry path true ∈ tree.walk start) :
    path = start ∨ ∃ location, .entry path true ∈ tree.walkBelow start location := by
  unfold walk at hmem
  split at hmem
  · exact absurd hmem (by simp)
  · exact absurd hmem (by simp)
  · exact (List.mem_cons.mp hmem).imp (fun heq => (WalkItem.entry.inj heq).1) fun h => ⟨_, h⟩
  · split at hmem
    · exact absurd hmem (by simp)
    · exact .inr ⟨_, (List.mem_cons.mp hmem).resolve_left (by simp)⟩
    · exact absurd hmem (by simp)

/-- Wherever a walk starts, it meets directories under its start continued by names. -/
theorem exists_walkPath_of_mem_walk (hwf : tree.WellFormed) {start path : Path}
    (hmem : .entry path true ∈ tree.walk start) :
    ∃ names, IsPlace names ∧ path = walkPath start names := by
  obtain rfl | ⟨location, hbelow⟩ := eq_or_mem_walkBelow_of_mem_walk hmem
  · exact ⟨[], .nil, rfl⟩
  · obtain ⟨names, directory, hpath, hget⟩ := exists_of_mem_walkBelow hwf hbelow
    exact ⟨names, (hwf.isPlace hget).right, hpath⟩

theorem exists_of_mem_walk (hwf : tree.WellFormed) (hplace : IsPlace location)
    (hlinks : tree.LinkFree location) (hlink : ∀ target, tree.get? location ≠ some (.link target))
    {path : Path} (hmem : .entry path true ∈ tree.walk (pathOf location)) :
    ∃ place directory, location <+: place ∧ path = pathOf place ∧
      tree.get? place = some (.directory directory) := by
  unfold walk at hmem
  cases hfind : tree.find false (pathOf location) with
  | error error => simp [hfind] at hmem
  | ok found =>
    obtain ⟨_, object⟩ := found
    obtain ⟨hshort, hget⟩ :=
      (inspect_pathOf_eq_ok_iff hwf hplace hlinks).mp (inspect_eq_ok_iff.mpr ⟨_, hfind⟩)
    rw [find_pathOf_of_get? hwf hshort hget] at hmem
    cases object with
    | link target => exact absurd hget (hlink target)
    | file content mode => simp at hmem
    | directory id =>
      rcases List.mem_cons.mp hmem with heq | hmem
      · exact ⟨location, id, List.prefix_rfl, (WalkItem.entry.inj heq).1, hget⟩
      · obtain ⟨names, id', hpath, hobject⟩ := exists_of_mem_walkBelow hwf hmem
        have hplace := hwf.isPlace hobject
        refine ⟨location ++ names, id', List.prefix_append location names, ?_, hobject⟩
        rw [hpath, walkPath_pathOf hplace.left hplace.right]

/-- A walk meets every directory at or below its start that can be looked up. -/
theorem mem_walk (hwf : tree.WellFormed) {place : Location} {directory : DirectoryId}
    (hbelow : location <+: place) (hget : tree.get? place = some (.directory directory))
    (hshort : IsShort place) : .entry (pathOf place) true ∈ tree.walk (pathOf location) := by
  obtain ⟨names, rfl⟩ := hbelow
  obtain ⟨start, hstart⟩ := hwf.exists_directory_above hget
  rw [walk, find_pathOf_of_get? hwf hshort.left hstart]
  by_cases hnil : names = []
  · simp [hnil]
  · refine List.mem_cons_of_mem _ (List.mem_flatMap.mpr ⟨(names, .directory directory),
      (mem_below_iff hwf).mpr ⟨hnil, hget⟩, ?_⟩)
    have hplace := hwf.isPlace hget
    have hparent : IsShort (location ++ names.dropLast) := by
      have hsplit : location ++ names = (location ++ names.dropLast) ++ [names.getLast hnil] := by
        rw [List.append_assoc, List.dropLast_concat_getLast]
      rw [hsplit] at hshort
      exact hshort.left
    have hdropLast : IsPlace names.dropLast := fun name hname =>
      hplace.right name (List.dropLast_subset names hname)
    simp only [walkPath_pathOf hplace.left hdropLast, walkPath_pathOf hplace.left hplace.right,
      if_neg (Nat.not_le.mpr hparent), Object.isDirectory, if_true]
    exact entry_mem_directoryItems_iff.mpr rfl

theorem mem_walk_iff (hwf : tree.WellFormed) (hplace : IsPlace location)
    (hlinks : tree.LinkFree location) (hlink : ∀ target, tree.get? location ≠ some (.link target))
    {place : Location} {directory : DirectoryId} (hshort : IsShort place)
    (hget : tree.get? place = some (.directory directory)) :
    .entry (pathOf place) true ∈ tree.walk (pathOf location) ↔ location <+: place := by
  constructor
  · intro hmem
    obtain ⟨found, other, hbelow, hpath, hfound⟩ := exists_of_mem_walk hwf hplace hlinks hlink hmem
    rwa [(pathOf_inj (hwf.isPlace hget) (hwf.isPlace hfound)).mp hpath]
  · exact fun hbelow => mem_walk hwf hbelow hget hshort

end Walk

end FileTree

end TreeWatch
