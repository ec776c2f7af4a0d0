import TreeWatch.Proofs.Path.Descent
import Mathlib.Data.List.DropRight
import Mathlib.Data.List.Infix

/-!
# What is left of a path behind its beginning

A path is cut between segments and its components are counted, so the two have to be brought
together: the segments that are left stand for the components that are left, whichever silent
segments lay before, between and behind them. What is left starts nowhere, so that it continues any
path that it is put behind, and it is spelt as it was in the path it came from.
-/

namespace TreeWatch

variable {segments : List Bytes}

section Silent

theorem Component.filterMap_eq_nil_iff :
    segments.filterMap ofSegment? = [] ↔ ∀ segment ∈ segments, isSilent segment = true := by
  simp [List.filterMap_eq_nil_iff, isSilent]

theorem Component.filterMap_dropWhile (segments : List Bytes) :
    (segments.dropWhile isSilent).filterMap ofSegment? = segments.filterMap ofSegment? := by
  conv_rhs => rw [← List.takeWhile_append_dropWhile (p := isSilent) (l := segments),
    List.filterMap_append]
  rw [filterMap_eq_nil_iff.mpr fun segment hsegment => List.mem_takeWhile_imp hsegment,
    List.nil_append]

theorem Component.filterMap_dropWhileEnd (segments : List Bytes) :
    (dropWhileEnd isSilent segments).filterMap ofSegment? = segments.filterMap ofSegment? := by
  rw [dropWhileEnd, List.filterMap_reverse, filterMap_dropWhile, List.filterMap_reverse,
    List.reverse_reverse]

end Silent

section Infixes

variable {α : Type} (mark : α) {part whole front back : List (List α)}

theorem isPrefix_joinWith_append (hpart : part ≠ []) (back : List (List α)) :
    joinWith mark part <+: joinWith mark (part ++ back) := by
  by_cases hback : back = []
  · rw [hback, List.append_nil]
  · rw [joinWith_append mark hpart hback]
    exact List.prefix_append _ _

theorem isSuffix_joinWith_append (hpart : part ≠ []) (front : List (List α)) :
    joinWith mark part <:+ joinWith mark (front ++ part) := by
  by_cases hfront : front = []
  · rw [hfront, List.nil_append]
  · rw [joinWith_append mark hfront hpart]
    exact (List.suffix_cons _ _).trans (List.suffix_append _ _)

theorem isInfix_joinWith (h : part <:+: whole) : joinWith mark part <:+: joinWith mark whole := by
  obtain ⟨front, back, rfl⟩ := h
  by_cases hpart : part = []
  · rw [hpart]
    exact List.nil_infix
  · rw [List.append_assoc]
    exact (isPrefix_joinWith_append mark hpart back).isInfix.trans
      (isSuffix_joinWith_append mark (by simp [hpart]) front).isInfix

end Infixes

namespace Path

variable {p base : Path} {count : Nat}

theorem head?_segments_of_isAbsolute (h : p.isAbsolute = true) : p.segments.head? = some [] := by
  rw [isAbsolute, beq_iff_eq, List.head?_eq_some_iff] at h
  obtain ⟨rest, hbytes⟩ := h
  rw [segments, hbytes, splitAtEach, if_pos rfl]
  rfl

theorem lead_eq_nil_of_head? {first : Bytes} (hhead : p.segments.head? = some first)
    (hfirst : isSilent first = false) : p.lead = [] := by
  refine lead_eq_nil_iff.mpr ⟨Bool.eq_false_iff.mpr fun habsolute => ?_, fun hdot => ?_⟩
  · obtain rfl := Option.some.inj (hhead.symm.trans (head?_segments_of_isAbsolute habsolute))
    simp [isSilent, Component.ofSegment?] at hfirst
  · obtain rfl := Option.some.inj (hhead.symm.trans hdot)
    simp [isSilent, Component.ofSegment?] at hfirst

theorem isSuffix_dropSteps (count : Nat) (segments : List Bytes) :
    dropSteps count segments <:+ segments := by
  induction segments generalizing count with
  | nil => cases count <;> simp [dropSteps]
  | cons segment more ih =>
    cases count with
    | zero => exact List.suffix_rfl
    | succ count =>
      rw [dropSteps]
      split <;> exact (ih _).trans (List.suffix_cons _ _)

theorem filterMap_dropSteps (count : Nat) (segments : List Bytes) :
    (dropSteps count segments).filterMap Component.ofSegment? =
      (segments.filterMap Component.ofSegment?).drop count := by
  induction segments generalizing count with
  | nil => cases count <;> simp [dropSteps]
  | cons segment more ih =>
    cases count with
    | zero => rfl
    | succ count =>
      rw [dropSteps]
      cases hsegment : Component.ofSegment? segment with
      | none => rw [if_pos (by simp [isSilent, hsegment]), ih, List.filterMap_cons_none hsegment]
      | some component =>
        rw [if_neg (by simp [isSilent, hsegment]), ih, List.filterMap_cons_some hsegment,
          List.drop_succ_cons]

/-- The segments behind the first `count` components, without silent ones around them. -/
def remainder (p : Path) (count : Nat) : List Bytes :=
  dropWhileEnd isSilent ((dropSteps (count - p.lead.length) p.segments).dropWhile isSilent)

theorem after_eq (h : count ≠ 0) (p : Path) : p.after count = ofSegments (p.remainder count) :=
  if_neg h

theorem isPrefix_remainder (p : Path) (count : Nat) :
    p.remainder count <+: (dropSteps (count - p.lead.length) p.segments).dropWhile isSilent :=
  List.rdropWhile_prefix _ _

theorem isInfix_remainder (p : Path) (count : Nat) : p.remainder count <:+: p.segments :=
  (isPrefix_remainder p count).isInfix.trans
    ((List.dropWhile_suffix _).trans (isSuffix_dropSteps _ _)).isInfix

theorem filterMap_remainder (p : Path) (count : Nat) :
    (p.remainder count).filterMap Component.ofSegment? =
    (p.segments.filterMap Component.ofSegment?).drop (count - p.lead.length) := by
  rw [remainder, Component.filterMap_dropWhileEnd, Component.filterMap_dropWhile,
    filterMap_dropSteps]

theorem isSilent_of_head?_remainder {segment : Bytes}
    (h : (p.remainder count).head? = some segment) :
    isSilent segment = false := by
  have hhead := List.head?_dropWhile_not isSilent (dropSteps (count - p.lead.length) p.segments)
  obtain ⟨rest, hrest⟩ := isPrefix_remainder p count
  rw [← hrest, List.head?_append, h] at hhead
  simpa using hhead

theorem segments_after (h : count ≠ 0) (hne : p.remainder count ≠ []) :
    (p.after count).segments = p.remainder count := by
  rw [after_eq h, segments, ofSegments, splitAtEach_joinWith slash hne]
  exact fun segment hsegment => notMem_of_mem_splitAtEach ((isInfix_remainder p count).subset
    hsegment)

/-- What follows the beginning of a path starts neither at the root nor with a dot. -/
theorem lead_after (h : count ≠ 0) (p : Path) : (p.after count).lead = [] := by
  by_cases hne : p.remainder count = []
  · rw [after_eq h, hne]
    rfl
  · obtain ⟨first, more, hremainder⟩ := List.exists_cons_of_ne_nil hne
    have hhead : (p.remainder count).head? = some first := by rw [hremainder]; rfl
    exact lead_eq_nil_of_head? (by rw [segments_after h hne, hhead])
      (isSilent_of_head?_remainder hhead)

theorem components_after (h : count ≠ 0) (p : Path) :
    (p.after count).components = p.components.drop count := by
  have hlead : p.lead.length ≤ count := by
    unfold lead
    split_ifs <;> simp <;> omega
  have hsteps : (p.after count).segments.filterMap Component.ofSegment? =
      (p.remainder count).filterMap Component.ofSegment? := by
    by_cases hne : p.remainder count = []
    · rw [after_eq h, hne]
      rfl
    · rw [segments_after h hne]
  rw [components, lead_after h, hsteps, filterMap_remainder, components, List.drop_append,
    List.drop_eq_nil_of_le hlead]

theorem isInfix_bytes_after (h : count ≠ 0) (p : Path) : (p.after count).bytes <:+: p.bytes := by
  have hjoin : joinWith slash p.segments = p.bytes := joinWith_splitAtEach slash p.bytes
  rw [after_eq h, ofSegments, ← hjoin]
  exact isInfix_joinWith slash (isInfix_remainder p count)

end Path

end TreeWatch
