import TreeWatch.Proofs.FileTree.Finding

/-!
# Spellings of one path

Paths with the same components may be spelt differently, and what they lead to may differ too: a dot
or a slash at the end asks for a directory and goes through a link there. But if both lead to a
directory, it is the same one.
-/

namespace TreeWatch

/-- The segment that a component comes from, where it comes from one. -/
def Component.segment : Component → Bytes
  | .up => dotDot
  | .name bytes => bytes
  | .root | .here => []

namespace FileTree

variable {tree : FileTree} {steps other : List Bytes} {here location : Location}
  {directory : DirectoryId} {p q : Path}

/-- Steps without dots, which lead nowhere. -/
def undotted (steps : List Bytes) : List Bytes := steps.filter (· ≠ dot)

theorem undotted_append : undotted (steps ++ other) = undotted steps ++ undotted other :=
  List.filter_append ..

section Following

variable {followLast : Bool}

theorem advance_of_undotted_nil (h : undotted steps = []) :
    tree.advance followLast here steps = tree.advance followLast here [] := by
  induction steps with
  | nil => rfl
  | cons step rest ih =>
    by_cases hdot : step = dot
    · rw [advance.eq_2, if_pos hdot]
      exact ih (by simpa [undotted, hdot] using h)
    · simp [undotted, hdot] at h

theorem exists_advance_of_undotted_cons {step : Bytes} {rest : List Bytes}
    (h : undotted steps = step :: rest) : ∃ more, undotted more = rest ∧
      tree.advance followLast here steps = tree.advance followLast here (step :: more) := by
  induction steps with
  | nil => simp [undotted] at h
  | cons first more ih =>
    by_cases hdot : first = dot
    · rw [advance, if_pos hdot]
      exact ih (by simpa [undotted, hdot] using h)
    · have hcons : first :: undotted more = step :: rest := by
        rw [← h]
        simp [undotted, hdot]
      obtain ⟨rfl, hrest⟩ := List.cons_eq_cons.mp hcons
      exact ⟨more, hrest, rfl⟩

/-- Steps to a directory lead there in every spelling, and so do steps that end at a link on the
way. -/
theorem advance_of_undotted (h : undotted steps = undotted other) :
    (∀ location directory,
      tree.advance false here steps = .reached (.object location (.directory directory)) →
      tree.advance true here other = .reached (.object location (.directory directory))) ∧
    ∀ holder target rest, tree.advance false here steps = .crossing holder target rest →
      ∃ more, undotted rest = undotted more ∧
        tree.advance true here other = .crossing holder target more := by
  induction steps generalizing here other with
  | nil =>
    rw [advance_of_undotted_nil h.symm]
    cases hget : tree.get? here with
    | none => simp [advance, hget]
    | some object => simp [advance, hget]
  | cons step rest ih =>
    by_cases hdot : step = dot
    · rw [advance, if_pos hdot]
      exact ih (by rw [← h]; simp [undotted, hdot])
    · have hcons : undotted other = step :: undotted rest := by
        rw [← h]
        simp [undotted, hdot]
      obtain ⟨more, hmore, hother⟩ := exists_advance_of_undotted_cons hcons
      rw [hother, advance, advance, if_neg hdot, if_neg hdot]
      by_cases hup : step = dotDot
      · rw [if_pos hup, if_pos hup]
        exact ih hmore.symm
      · rw [if_neg hup, if_neg hup]
        by_cases hlong : nameMax < step.length
        · simp [if_pos hlong]
        · rw [if_neg hlong, if_neg hlong]
          cases hget : tree.get? (here ++ [step]) with
          | none => by_cases hrest : rest = [] <;> simp [hrest]
          | some object =>
            cases object with
            | directory id => exact ih hmore.symm
            | file content mode => by_cases hrest : rest = [] <;> simp [hrest]
            | link target =>
              simp only
              by_cases hrest : rest = []
              · simp [hrest]
              · simp only [hrest, false_and, if_false, and_false, Bool.true_eq_false]
                refine ⟨by simp, ?_⟩
                intro holder target' rest' hcrossing
                obtain ⟨rfl, rfl, rfl⟩ := Stop.crossing.inj hcrossing
                exact ⟨more, hmore.symm, rfl⟩

theorem follow_of_undotted {links : Nat} (h : undotted steps = undotted other)
    (hfollow : tree.follow false links here steps = .ok (.object location (.directory directory))) :
    tree.follow true links here other = .ok (.object location (.directory directory)) := by
  induction links generalizing here steps other with
  | zero =>
    unfold follow at hfollow ⊢
    cases hadvance : tree.advance false here steps with
    | reached what =>
      rw [hadvance] at hfollow
      obtain rfl := Except.ok.inj hfollow
      rw [(advance_of_undotted h).1 _ _ hadvance]
    | refused error => simp [hadvance] at hfollow
    | crossing holder target rest => simp [hadvance] at hfollow
  | succ links ih =>
    unfold follow at hfollow ⊢
    cases hadvance : tree.advance false here steps with
    | reached what =>
      rw [hadvance] at hfollow
      obtain rfl := Except.ok.inj hfollow
      rw [(advance_of_undotted h).1 _ _ hadvance]
    | refused error => simp [hadvance] at hfollow
    | crossing holder target rest =>
      obtain ⟨more, hmore, hother⟩ := (advance_of_undotted h).2 holder target rest hadvance
      rw [hadvance] at hfollow
      rw [hother]
      simp only at hfollow ⊢
      split at hfollow
      · exact absurd hfollow (by simp)
      · next htarget =>
        rw [if_neg htarget]
        exact ih (by rw [undotted_append, undotted_append, hmore]) hfollow

end Following

section Components

theorem map_segment_ofSegment (segments : List Bytes) :
    (segments.filterMap Component.ofSegment?).map Component.segment =
      undotted (segments.filter (· ≠ [])) := by
  induction segments with
  | nil => rfl
  | cons segment rest ih =>
    by_cases hnil : segment = []
    · simpa [hnil, Component.ofSegment?] using ih
    · by_cases hdot : segment = dot
      · have hsilent : Component.ofSegment? segment = none := by simp [Component.ofSegment?, hdot]
        have hundotted : undotted ((segment :: rest).filter (· ≠ [])) =
            undotted (rest.filter (· ≠ [])) := by simp [undotted, hdot]
        rw [List.filterMap_cons_none hsilent, hundotted, ih]
      · have hcomponent : ∃ component, Component.ofSegment? segment = some component ∧
            component.segment = segment := by
          by_cases hup : segment = dotDot
          · exact ⟨.up, by simp [Component.ofSegment?, hup, dot, dotDot], hup.symm⟩
          · exact ⟨.name segment, by simp [Component.ofSegment?, hnil, hdot, hup], rfl⟩
        obtain ⟨component, hsome, hsegment⟩ := hcomponent
        have hundotted : undotted ((segment :: rest).filter (· ≠ [])) =
            segment :: undotted (rest.filter (· ≠ [])) := by simp [undotted, hnil, hdot]
        rw [List.filterMap_cons_some hsome, List.map_cons, ih, hsegment, hundotted]

theorem undotted_stepsOf_eq (p : Path) :
    undotted (stepsOf p) = (p.segments.filterMap Component.ofSegment?).map Component.segment := by
  rw [map_segment_ofSegment, stepsOf, undotted_append]
  split <;> simp [undotted]

theorem filter_components (p : Path) :
    p.components.filter (fun component => component ≠ .root ∧ component ≠ .here) =
      p.segments.filterMap Component.ofSegment? := by
  rw [Path.components, List.filter_append]
  have hlead : p.lead.filter (fun component => component ≠ .root ∧ component ≠ .here) = [] := by
    unfold Path.lead
    split
    · rfl
    · split <;> rfl
  rw [hlead, List.nil_append, List.filter_eq_self]
  intro component hcomponent
  obtain ⟨segment, -, hsegment⟩ := List.mem_filterMap.mp hcomponent
  unfold Component.ofSegment? at hsegment
  split at hsegment
  · exact absurd hsegment (by simp)
  · split at hsegment <;> simp [← Option.some.inj hsegment]

/-- Paths with the same components have the same steps but for dots. -/
theorem undotted_stepsOf (h : p.same q = true) : undotted (stepsOf p) = undotted (stepsOf q) := by
  have hcomponents : p.components = q.components := beq_iff_eq.mp h
  rw [undotted_stepsOf_eq, undotted_stepsOf_eq, ← filter_components, ← filter_components,
    hcomponents]

end Components

theorem follow_of_inspect (h : tree.inspect p = .ok (.directory directory)) : ∃ location,
    tree.follow false linkLimit [] (stepsOf p) = .ok (.object location (.directory directory)) := by
  obtain ⟨location, hfind⟩ := inspect_eq_ok_iff.mp h
  exact ⟨location, (find_eq_ok_iff.mp hfind).2.2.2⟩

/-- Two paths with the same components do not lead to different directories. -/
theorem eq_of_inspect_of_same {first second : DirectoryId} (hsame : p.same q = true)
    (hp : tree.inspect p = .ok (.directory first)) (hq : tree.inspect q = .ok (.directory second)) :
    first = second := by
  obtain ⟨a, ha⟩ := follow_of_inspect hp
  obtain ⟨b, hb⟩ := follow_of_inspect hq
  have hfirst := follow_of_undotted (undotted_stepsOf hsame) ha
  have hsecond := follow_of_undotted rfl hb
  rw [hfirst] at hsecond
  cases hsecond
  rfl

end FileTree

end TreeWatch
