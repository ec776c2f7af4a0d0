import Mathlib.Logic.Relation
import TreeWatch.Proofs.FileTree.Spelling
import TreeWatch.Proofs.Path.Descent

/-!
# Respelling a path

A slash that follows a slash says nothing, nor does a dot between slashes or behind the last one,
nor a slash at the end. Two paths have the same components exactly if one becomes the other by
taking such things out and putting them in.
-/

namespace TreeWatch

namespace Path

/-- A path, and the same path with one thing less that says nothing. -/
inductive Respells : Path → Path → Prop where
  | repeatedSlash (front back : Bytes) : Respells ⟨front ++ slash :: slash :: back⟩ ⟨front ++
      slash :: back⟩
  | innerDot (front back : Bytes) : Respells ⟨front ++ slash :: (dot ++ slash :: back)⟩ ⟨front ++
      slash :: back⟩
  | lastDot (front : Bytes) : Respells ⟨front ++ slash :: dot⟩ ⟨front ++ [slash]⟩
  | lastSlash {front : Bytes} (hne : front ≠ []) : Respells ⟨front ++ [slash]⟩ ⟨front⟩

/-- Two spellings of one path: what says nothing may be taken out and put in. -/
abbrev Spellings : Path → Path → Prop := Relation.EqvGen Respells

variable {p q : Path} {front : Bytes} {first segment : Bytes} {segments more other : List Bytes}

/-! ## The same path has the same components -/

theorem head?_segments_append (front rest : Bytes) :
    (Path.segments ⟨front ++ slash :: rest⟩).head? = (Path.segments ⟨front⟩).head? := by
  obtain ⟨first, more, hsplit⟩ := List.exists_cons_of_ne_nil (splitAtEach_ne_nil slash front)
  rw [Path.segments, splitAtEach_append, Path.segments, hsplit]
  rfl

theorem lead_append_slash (front rest : Bytes) :
    lead ⟨front ++ slash :: rest⟩ = lead ⟨front ++ [slash]⟩ := by
  have habsolute : isAbsolute ⟨front ++ slash :: rest⟩ = isAbsolute ⟨front ++ [slash]⟩ := by
    cases front <;> rfl
  rw [lead, lead, habsolute, head?_segments_append, head?_segments_append]

theorem components_append_slash (front rest : Bytes) : components ⟨front ++ slash :: rest⟩ =
    components ⟨front ++ [slash]⟩ ++ (splitAtEach slash rest).filterMap Component.ofSegment? := by
  have hempty : (splitAtEach slash []).filterMap Component.ofSegment? = [] := rfl
  rw [components, components, lead_append_slash, Path.segments, Path.segments, splitAtEach_append,
    splitAtEach_append, List.filterMap_append, List.filterMap_append, hempty, List.append_nil,
    List.append_assoc]

theorem components_append_lastSlash (hne : front ≠ []) :
    components ⟨front ++ [slash]⟩ = components ⟨front⟩ := by
  have hempty : (splitAtEach slash []).filterMap Component.ofSegment? = [] := rfl
  have habsolute : isAbsolute ⟨front ++ [slash]⟩ = isAbsolute ⟨front⟩ := by
    obtain ⟨b, front, rfl⟩ := List.exists_cons_of_ne_nil hne
    rfl
  have hlead : lead ⟨front ++ [slash]⟩ = lead ⟨front⟩ := by
    rw [lead, lead, habsolute, head?_segments_append]
  rw [components, components, hlead, Path.segments, Path.segments, splitAtEach_append,
    List.filterMap_append, hempty, List.append_nil]

theorem Respells.components_eq (h : Respells p q) : p.components = q.components := by
  cases h with
  | repeatedSlash front back =>
    rw [components_append_slash, components_append_slash front back]
    rfl
  | innerDot front back =>
    have hdot : (splitAtEach slash (dot ++ slash :: back)).filterMap Component.ofSegment? =
        (splitAtEach slash back).filterMap Component.ofSegment? := by
      rw [splitAtEach_append, List.filterMap_append]
      rfl
    rw [components_append_slash, components_append_slash front back, hdot]
  | lastDot front =>
    rw [components_append_slash]
    exact List.append_nil _
  | lastSlash hne => exact components_append_lastSlash hne

theorem Spellings.components_eq (h : Spellings p q) : p.components = q.components := by
  induction h with
  | rel _ _ h => exact h.components_eq
  | refl _ => rfl
  | symm _ _ _ ih => exact ih.symm
  | trans _ _ _ _ _ ih ih' => exact ih.trans ih'

/-! ## The same components are the same path -/

/-- A beginning and segments behind it, each after a slash. -/
def continued (front : Bytes) (segments : List Bytes) : Path :=
  ⟨front ++ segments.flatMap (slash :: ·)⟩

/-- The segments that say something. -/
def spoken (segments : List Bytes) : List Bytes := segments.filter (!isSilent ·)

theorem isSilent_iff : isSilent segment = true ↔ segment = [] ∨ segment = dot := by
  rw [isSilent, Option.isNone_iff_eq_none, Component.ofSegment?_eq_none_iff]

theorem continued_cons (front first : Bytes) (more : List Bytes) :
    continued front (first :: more) = continued (front ++ slash :: first) more := by
  simp [continued]

/-- A segment that says nothing may be taken out, unless the slash before it is the whole path. -/
theorem spellings_of_isSilent (hsegment : isSilent segment = true) (hne : front ≠ [] ∨ more ≠ []) :
    Spellings (continued front (segment :: more)) (continued front more) := by
  cases more with
  | nil =>
    have hfront := hne.resolve_right (· rfl)
    have hlast : Spellings ⟨front ++ [slash]⟩ (continued front []) := by
      simpa [continued] using Relation.EqvGen.rel _ _ (Respells.lastSlash hfront)
    obtain rfl | rfl := isSilent_iff.mp hsegment
    · exact hlast
    · exact .trans _ _ _ (.rel _ _ (.lastDot front)) hlast
  | cons second more =>
    obtain rfl | rfl := isSilent_iff.mp hsegment
    · exact .rel _ _ (.repeatedSlash front (second ++ more.flatMap (slash :: ·)))
    · exact .rel _ _ (.innerDot front (second ++ more.flatMap (slash :: ·)))

theorem spellings_spoken (hfront : front ≠ []) (segments : List Bytes) :
    Spellings (continued front segments) (continued front (spoken segments)) := by
  induction segments generalizing front with
  | nil => exact .refl _
  | cons segment more ih =>
    by_cases hsegment : isSilent segment = true
    · rw [spoken, List.filter_cons_of_neg (by simp [hsegment])]
      exact .trans _ _ _ (spellings_of_isSilent hsegment (.inl hfront)) (ih hfront)
    · rw [spoken, List.filter_cons_of_pos (by simp [hsegment]), continued_cons, continued_cons]
      exact ih (by simp)

/-- An absolute path that says no more than that is a single slash. -/
def absolute (segments : List Bytes) : Path :=
  if segments = [] then ⟨[slash]⟩ else continued [] segments

theorem spellings_absolute (hne : segments ≠ []) :
    Spellings (continued [] segments) (absolute (spoken segments)) := by
  induction segments with
  | nil => exact absurd rfl hne
  | cons segment more ih =>
    by_cases hsegment : isSilent segment = true
    · rw [spoken, List.filter_cons_of_neg (by simp [hsegment])]
      by_cases hmore : more = []
      · subst hmore
        obtain rfl | rfl := isSilent_iff.mp hsegment
        · exact .refl _
        · exact .rel _ _ (.lastDot [])
      · exact .trans _ _ _ (spellings_of_isSilent hsegment (.inr hmore)) (ih hmore)
    · rw [spoken, List.filter_cons_of_pos (by simp [hsegment]), absolute,
        if_neg (List.cons_ne_nil _ _), continued_cons, continued_cons]
      exact spellings_spoken (by simp) more

theorem spoken_eq (segments : List Bytes) :
    spoken segments = (segments.filterMap Component.ofSegment?).map Component.segment := by
  have hspoken (segment : Bytes) :
      (!isSilent segment) = (decide (segment ≠ dot) && decide (segment ≠ [])) := by
    rw [Bool.eq_iff_iff, Bool.not_eq_true', ← Bool.not_eq_true, isSilent_iff]
    simp [and_comm]
  rw [FileTree.map_segment_ofSegment, FileTree.undotted, List.filter_filter, spoken]
  simp only [hspoken]

/-- The shortest spelling of a path, made from its components. -/
def shortest : List Component → Path
  | [] => ⟨[]⟩
  | .root :: more => absolute (more.map Component.segment)
  | .here :: more => continued dot (more.map Component.segment)
  | component :: more => continued component.segment (more.map Component.segment)

theorem eq_continued (h : p.segments = first :: more) : p = continued first more := by
  have hjoin : joinWith slash p.segments = p.bytes := joinWith_splitAtEach slash p.bytes
  rw [h, joinWith_cons_eq_flatMap] at hjoin
  rw [continued, hjoin]

theorem isAbsolute_iff (h : p.segments = first :: more) :
    p.isAbsolute = true ↔ first = [] ∧ more ≠ [] := by
  have hslash : slash ∉ first := notMem_of_mem_splitAtEach (h ▸ List.mem_cons_self)
  rw [eq_continued h, isAbsolute, continued, beq_iff_eq]
  cases first with
  | nil => cases more <;> simp
  | cons b first =>
    rw [List.mem_cons, not_or] at hslash
    simp [Ne.symm hslash.1]

theorem spellings_shortest (p : Path) : Spellings p (shortest p.components) := by
  obtain ⟨first, more, hsegments⟩ := List.exists_cons_of_ne_nil (splitAtEach_ne_nil slash p.bytes)
  change p.segments = first :: more at hsegments
  have habsolute := isAbsolute_iff hsegments
  have hp := eq_continued hsegments
  rw [components, lead, hsegments, List.head?_cons]
  by_cases hnil : first = []
  · subst hnil
    by_cases hmore : more = []
    · subst hmore
      rw [hp]
      exact .refl _
    · rw [if_pos (habsolute.mpr ⟨rfl, hmore⟩), List.singleton_append,
        List.filterMap_cons_none rfl, shortest, ← spoken_eq, hp]
      exact spellings_absolute hmore
  · rw [if_neg fun h => hnil (habsolute.mp h).1]
    by_cases hdot : first = dot
    · subst hdot
      rw [if_pos rfl, List.singleton_append, List.filterMap_cons_none rfl, shortest, ← spoken_eq]
      conv_lhs => rw [hp]
      exact spellings_spoken hnil more
    · have hfirst : Component.ofSegment? first =
          some (if first = dotDot then .up else .name first) := by
        unfold Component.ofSegment?
        split_ifs with hsilent <;> first | rfl | exact absurd hsilent (not_or.mpr ⟨hnil, hdot⟩)
      have hshortest (more : List Component) :
        shortest ((if first = dotDot then .up else .name first) :: more) =
          continued first (more.map Component.segment) := by
        split_ifs with hup
        · exact hup ▸ rfl
        · rfl
      rw [if_neg (by simpa using hdot), List.nil_append, List.filterMap_cons_some hfirst, hshortest,
        ← spoken_eq]
      conv_lhs => rw [hp]
      exact spellings_spoken hnil more

/-- Two paths have the same components exactly if they are spellings of one path. -/
theorem spellings_iff : Spellings p q ↔ p.components = q.components := by
  refine ⟨Spellings.components_eq, fun h => .trans _ _ _ (spellings_shortest p) ?_⟩
  rw [h]
  exact .symm _ _ (spellings_shortest q)

end Path

end TreeWatch
