import TreeWatch.Proofs.FileTree.Resolution
import TreeWatch.Proofs.FileTree.Spelling
import TreeWatch.Proofs.Path.Descent

/-!
# What a walk surveys

A walk from a path meets directories, each under a path of its own; those that can be looked up
under it are its survey. If the walk starts at a directory, its survey holds every directory at and
below the start whose path is short enough, each once: a path is continued by names just as the
place that it leads to, even if links lie on the way to the start.
-/

namespace TreeWatch

namespace FileTree

variable {tree : FileTree} {start path p q : Path} {here location : Location} {object : Object}
  {directory first second : DirectoryId} {names : Location} {followLast : Bool}
  {steps tail more : List Bytes}

section Following

theorem advance_append (htail : undotted tail = []) (hmore : more ≠ []) :
    (∀ location directory,
      tree.advance followLast here (steps ++ tail) =
        .reached (.object location (.directory directory)) →
      tree.advance false here (steps ++ more) = tree.advance false location more) ∧
    ∀ holder target rest, tree.advance followLast here (steps ++ tail) =
      .crossing holder target rest →
      ∃ left, rest = left ++ tail ∧
        tree.advance false here (steps ++ more) = .crossing holder target (left ++ more) := by
  induction steps generalizing here with
  | nil =>
    rw [List.nil_append, advance_of_undotted_nil htail, advance]
    cases hget : tree.get? here with
    | none => simp
    | some object =>
      refine ⟨fun location directory h => ?_, fun _ _ _ h => by cases h⟩
      cases h
      rfl
  | cons step rest ih =>
    simp only [List.cons_append, advance]
    split
    · exact ih
    · split
      · exact ih
      · split
        · simp
        · cases hget : tree.get? (here ++ [step]) with
          | none =>
            refine ⟨fun _ _ h => ?_, fun _ _ _ h => ?_⟩ <;> simp only at h <;> split at h
              <;> cases h
          | some object =>
            cases object with
            | directory id => exact ih
            | file content mode =>
              refine ⟨fun _ _ h => ?_, fun _ _ _ h => ?_⟩ <;> simp only at h <;> split at h
                <;> cases h
            | link target =>
              refine ⟨fun _ _ h => ?_, fun _ _ _ h => ?_⟩
              · simp only at h
                split at h <;> cases h
              · simp only at h
                split at h
                · cases h
                · cases h
                  exact ⟨rest, rfl, by simp [hmore]⟩

theorem follow_append {links : Nat} {reached : Reached} (htail : undotted tail = [])
    (hmore : more ≠ []) (hon : tree.advance false location more = .reached reached)
    (h : tree.follow followLast links here (steps ++ tail) =
      .ok (.object location (.directory directory))) :
    tree.follow false links here (steps ++ more) = .ok reached := by
  induction links generalizing here steps with
  | zero =>
    obtain ⟨hreached, -⟩ := @advance_append tree here followLast steps tail more htail hmore
    unfold follow at h ⊢
    split at h
    · next hadvance =>
      cases h
      rw [hreached _ _ hadvance, hon]
    · cases h
    · cases h
  | succ links ih =>
    obtain ⟨hreached, hcrossing⟩ := @advance_append tree here followLast steps tail more htail hmore
    unfold follow at h ⊢
    split at h
    · next hadvance =>
      cases h
      rw [hreached _ _ hadvance, hon]
    · cases h
    · next holder target rest hadvance =>
      obtain ⟨left, rfl, hnext⟩ := hcrossing _ _ _ hadvance
      rw [hnext]
      simp only at h ⊢
      split at h
      · cases h
      · next hempty =>
        rw [if_neg hempty, ← List.append_assoc]
        rw [← List.append_assoc] at h
        exact ih h

end Following

section Finding

/-- A path to a directory, or to a link to one, that is continued by names leads to what stands
there. -/
theorem find_walkPath_of_ne_nil (hwf : tree.WellFormed)
    (hfind : tree.find followLast start = .ok (location, .directory directory))
    (hnames : names ≠ []) (hget : tree.get? (location ++ names) = some object)
    (hshort : (walkPath start names).bytes.length < pathLimit) :
    tree.find false (walkPath start names) = .ok (location ++ names, object) := by
  obtain ⟨hnul, hbytes, -, hfollow⟩ := find_eq_ok_iff.mp hfind
  have hplace := (hwf.isPlace hget).right
  have hadvance := advance_of_linkFree hwf names location hplace (hwf.linkFree hget)
  rw [hget] at hadvance
  refine find_eq_ok_iff.mpr
    ⟨contains_walkPath hnul hplace, bytes_walkPath_ne_nil hbytes names, hshort, ?_⟩
  rw [stepsOf_walkPath hbytes hnames hplace]
  apply follow_append _ hnames hadvance hfollow
  split <;> simp [undotted]

theorem find_walkPath (hwf : tree.WellFormed)
    (hfind : tree.find false start = .ok (location, .directory directory))
    (hget : tree.get? (location ++ names) = some object)
    (hshort : (walkPath start names).bytes.length < pathLimit) :
    tree.find false (walkPath start names) = .ok (location ++ names, object) := by
  by_cases hnil : names = []
  · subst hnil
    have hstart := get?_of_find hfind
    rw [List.append_nil] at hget ⊢
    obtain rfl := Option.some.inj (hstart.symm.trans hget)
    exact hfind
  · exact find_walkPath_of_ne_nil hwf hfind hnil hget hshort

end Finding

/-- The directories that a walk meets and that can be looked up, each with the path it is met
under. -/
def survey (tree : FileTree) (start : Path) : List (Path × DirectoryId) :=
  (tree.walk start).filterMap fun item =>
    match item with
    | .entry path true =>
      match tree.inspect path with
      | .ok (.directory directory) => some (path, directory)
      | _ => none
    | _ => none

theorem mem_survey_iff : (path, directory) ∈ tree.survey start ↔
    .entry path true ∈ tree.walk start ∧ tree.inspect path = .ok (.directory directory) := by
  rw [survey, List.mem_filterMap]
  constructor
  · rintro ⟨item, hitem, hfound⟩
    split at hfound
    · split at hfound
      · next hinspect =>
        cases hfound
        exact ⟨hitem, hinspect⟩
      · cases hfound
    · cases hfound
  · rintro ⟨hitem, hinspect⟩
    exact ⟨_, hitem, by simp [hinspect]⟩

theorem eq_of_mem_survey_of_same (hp : (p, first) ∈ tree.survey start)
    (hq : (q, second) ∈ tree.survey start) (hsame : p.same q = true) : first = second :=
  eq_of_inspect_of_same hsame (mem_survey_iff.mp hp).2 (mem_survey_iff.mp hq).2

section Survey

variable (hwf : tree.WellFormed)
  (hfind : tree.find false start = .ok (location, .directory directory))

include hwf hfind

/-- The survey of a walk that starts at a directory: all that is there under a short enough path. -/
theorem mem_survey_iff_of_find : (path, first) ∈ tree.survey start ↔
    ∃ names, path = walkPath start names ∧ path.bytes.length < pathLimit ∧
      tree.get? (location ++ names) = some (.directory first) := by
  have hwalk : tree.walk start = .entry start true :: tree.walkBelow start location := by
    rw [walk, hfind]
  rw [mem_survey_iff, hwalk, List.mem_cons]
  constructor
  · rintro ⟨hitem, hinspect⟩
    have hshort := length_lt_of_inspect hinspect
    have hnames : ∃ names found, path = walkPath start names ∧
        tree.get? (location ++ names) = some (.directory found) := by
      rcases hitem with hitem | hitem
      · refine ⟨[], directory, (WalkItem.entry.inj hitem).1, ?_⟩
        rw [List.append_nil]
        exact get?_of_find hfind
      · exact exists_of_mem_walkBelow hwf hitem
    obtain ⟨names, found, rfl, hget⟩ := hnames
    have hfound := inspect_of_find (find_walkPath hwf hfind hget hshort)
    obtain rfl := eq_of_inspect hfound hinspect
    exact ⟨names, rfl, hshort, hget⟩
  · rintro ⟨names, rfl, hshort, hget⟩
    refine ⟨?_, inspect_of_find (find_walkPath hwf hfind hget hshort)⟩
    by_cases hnil : names = []
    · exact .inl (by rw [hnil]; rfl)
    · refine .inr (List.mem_flatMap.mpr ⟨(names, .directory first),
        (mem_below_iff hwf).mpr ⟨hnil, hget⟩, ?_⟩)
      have hplace := (hwf.isPlace hget).right
      have hparent : (walkPath start names.dropLast).bytes.length < pathLimit := by
        have hlast : IsPlace [names.getLast hnil] := by
          simpa [IsPlace] using hplace _ (names.getLast_mem hnil)
        have hle := @length_walkPath_le_append start names.dropLast _ hlast
        rw [List.dropLast_concat_getLast] at hle
        exact Nat.lt_of_le_of_lt hle hshort
      simp only [if_neg (Nat.not_le.mpr hparent), Object.isDirectory, if_true]
      exact entry_mem_directoryItems_iff.mpr rfl

theorem start_mem_survey : (start, directory) ∈ tree.survey start := by
  refine (mem_survey_iff_of_find hwf hfind).mpr
    ⟨[], rfl, (find_eq_ok_iff.mp hfind).2.2.1, ?_⟩
  rw [List.append_nil]
  exact get?_of_find hfind

theorem eq_of_mem_survey_of_directory (hp : (p, first) ∈ tree.survey start)
    (hq : (q, first) ∈ tree.survey start) : p = q := by
  obtain ⟨front, rfl, -, hfront⟩ := (mem_survey_iff_of_find hwf hfind).mp hp
  obtain ⟨back, rfl, -, hback⟩ := (mem_survey_iff_of_find hwf hfind).mp hq
  rw [List.append_cancel_left (hwf.unique hfront hback)]

theorem exists_mem_survey_of_between (hp : (p, first) ∈ tree.survey start)
    (hbelow : p.isBelow q = true) (habove : start.isBelow q = false) :
    ∃ between found, (between, found) ∈ tree.survey start ∧ between.same q = true := by
  obtain ⟨names, rfl, hshort, hget⟩ := (mem_survey_iff_of_find hwf hfind).mp hp
  have hplace := (hwf.isPlace hget).right
  obtain ⟨front, back, rfl, hsame⟩ := exists_same_of_between hplace hbelow habove
  rw [← List.append_assoc] at hget
  obtain ⟨above, habove⟩ := hwf.exists_directory_above hget
  refine ⟨walkPath start front, above, (mem_survey_iff_of_find hwf hfind).mpr ⟨front, rfl, ?_,
    habove⟩, hsame⟩
  exact Nat.lt_of_le_of_lt (length_walkPath_le_append hplace.right) hshort

end Survey

section Links

/-- A path names a link, and it leads to a directory. -/
def LinksToDirectory (tree : FileTree) (path : Path) : Prop :=
  ∃ text directory, tree.inspect path = .ok (.link text) ∧
    tree.inspectTarget path = .ok (.directory directory)

theorem isDirectory_walkPath (hwf : tree.WellFormed)
    (hfind : tree.find followLast start = .ok (location, .directory directory))
    (hget : tree.get? (location ++ names) = some (.directory first))
    (hshort : (walkPath start names).bytes.length < pathLimit) {front : Location}
    (hfront : front ≠ []) (hbegins : front <+: names) :
    tree.isDirectory (walkPath start front) = true := by
  obtain ⟨back, rfl⟩ := hbegins
  have hback := (hwf.isPlace hget).right.right
  rw [← List.append_assoc] at hget
  obtain ⟨above, habove⟩ := hwf.exists_directory_above hget
  have hle := Nat.lt_of_le_of_lt (length_walkPath_le_append hback) hshort
  have hfound := find_walkPath_of_ne_nil hwf hfind hfront habove hle
  exact isDirectory_of_inspect (inspect_of_find hfound)

/-- What a walk surveys is reached from its start by directories only; the start itself may be a
link. -/
theorem exists_of_mem_survey (hwf : tree.WellFormed) (h : (path, first) ∈ tree.survey start) :
    ∃ names, path = walkPath start names ∧
      (∀ front, front ≠ [] → front <+: names → tree.isDirectory (walkPath start front) = true) ∧
      (tree.isDirectory start = true ∨ names ≠ [] ∧ tree.LinksToDirectory start) := by
  obtain ⟨hitem, hinspect⟩ := mem_survey_iff.mp h
  have hshort := length_lt_of_inspect hinspect
  cases hfind : tree.find false start with
  | error error => simp [walk, hfind] at hitem
  | ok found =>
    obtain ⟨location, object⟩ := found
    have hstart := inspect_of_find hfind
    cases object with
    | file content mode => simp [walk, hfind] at hitem
    | directory id =>
      obtain ⟨names, rfl, -, hget⟩ := (mem_survey_iff_of_find hwf hfind).mp h
      refine ⟨names, rfl, fun front hne hbegins => ?_, .inl (isDirectory_of_inspect hstart)⟩
      exact isDirectory_walkPath hwf hfind hget hshort hne hbegins
    | link text =>
      cases htarget : tree.find true start with
      | error error => simp [walk, hfind, htarget] at hitem
      | ok found =>
        obtain ⟨below, object⟩ := found
        cases object with
        | file content mode => simp [walk, hfind, htarget] at hitem
        | link text => simp [walk, hfind, htarget] at hitem
        | directory id =>
          have hitem : .entry path true ∈ tree.walkBelow start below := by
            simpa [walk, hfind, htarget] using hitem
          obtain ⟨names, other, rfl, hget⟩ := exists_of_mem_walkBelow hwf hitem
          have hne : names ≠ [] := by
            rintro rfl
            cases hstart.symm.trans hinspect
          have hlinks : tree.LinksToDirectory start :=
            ⟨text, id, hstart, inspectTarget_eq_ok_iff.mpr ⟨below, htarget⟩⟩
          refine ⟨names, rfl, fun front hfront hbegins => ?_, .inr ⟨hne, hlinks⟩⟩
          exact isDirectory_walkPath hwf htarget hget hshort hfront hbegins

end Links

end FileTree

end TreeWatch
