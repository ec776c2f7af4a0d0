import Mathlib.Data.List.Basic
import TreeWatch.Text.Lines

/-!
# Stretches between marks

Cutting at marks and joining with marks undo each other as long as no stretch has a mark in it.
Lines are a case of this, with a mark behind the last of them as well.
-/

namespace TreeWatch

variable {α : Type} (mark : α)

section Joining

theorem joinWith_cons (first : List α) {rest : List (List α)} (hrest : rest ≠ []) :
    joinWith mark (first :: rest) = first ++ mark :: joinWith mark rest := by
  cases rest with
  | nil => exact absurd rfl hrest
  | cons second more => rfl

theorem joinWith_cons_eq_flatMap (first : List α) (rest : List (List α)) :
    joinWith mark (first :: rest) = first ++ rest.flatMap (mark :: ·) := by
  induction rest generalizing first with
  | nil => exact (List.append_nil first).symm
  | cons second rest ih => rw [joinWith, ih, List.flatMap_cons, List.cons_append]

theorem joinWith_append {front back : List (List α)} (hfront : front ≠ []) (hback : back ≠ []) :
    joinWith mark (front ++ back) = joinWith mark front ++ mark :: joinWith mark back := by
  induction front with
  | nil => exact absurd rfl hfront
  | cons first rest ih =>
    by_cases hrest : rest = []
    · subst rest
      rw [List.singleton_append, joinWith_cons mark first hback]
      rfl
    · rw [List.cons_append, joinWith_cons mark first (by simp [hrest]), ih hrest,
        joinWith_cons mark first hrest, List.append_assoc, List.cons_append]

theorem joinWith_ne_nil {parts : List (List α)} (hne : parts ≠ [])
    (hparts : ∀ part ∈ parts, part ≠ []) : joinWith mark parts ≠ [] := by
  cases parts with
  | nil => exact absurd rfl hne
  | cons first rest =>
    have hfirst := hparts first (by simp)
    by_cases hrest : rest = []
    · subst rest
      exact hfirst
    · rw [joinWith_cons mark first hrest]
      simp [hfirst]

theorem getLast?_joinWith {parts : List (List α)} (hne : parts ≠ [])
    (hparts : ∀ part ∈ parts, part ≠ []) :
    (joinWith mark parts).getLast? = (parts.getLast hne).getLast? := by
  induction parts with
  | nil => exact absurd rfl hne
  | cons first rest ih =>
    by_cases hrest : rest = []
    · subst rest
      rfl
    · have hjoin := joinWith_ne_nil mark hrest fun part hp => hparts part (by simp [hp])
      rw [joinWith_cons mark first hrest, List.getLast_cons hrest,
        ← ih hrest fun part hp => hparts part (by simp [hp]), List.getLast?_append]
      cases hj : joinWith mark rest with
      | nil => exact absurd hj hjoin
      | cons x xs => simp [List.getLast?_cons]

end Joining

section Cutting

variable [DecidableEq α]

theorem splitAtEach_of_notMem {part : List α} (hpart : mark ∉ part) :
    splitAtEach mark part = [part] := by
  induction part with
  | nil => rfl
  | cons x xs ih =>
    simp only [List.mem_cons, not_or] at hpart
    rw [splitAtEach, if_neg (Ne.symm hpart.1), ih hpart.2]

theorem splitAtEach_append_cons {part : List α} (hpart : mark ∉ part) (rest : List α) :
    splitAtEach mark (part ++ mark :: rest) = part :: splitAtEach mark rest := by
  rw [splitAtEach_append, splitAtEach_of_notMem mark hpart, List.singleton_append]

theorem splitAtEach_joinWith {parts : List (List α)} (hne : parts ≠ [])
    (hparts : ∀ part ∈ parts, mark ∉ part) : splitAtEach mark (joinWith mark parts) = parts := by
  induction parts with
  | nil => exact absurd rfl hne
  | cons first rest ih =>
    have hfirst := hparts first (by simp)
    by_cases hrest : rest = []
    · subst rest
      exact splitAtEach_of_notMem mark hfirst
    · rw [joinWith_cons mark first hrest, splitAtEach_append_cons mark hfirst,
        ih hrest fun part hp => hparts part (by simp [hp])]

variable {mark}

theorem splitAtEach_append_of_notMem {front : List α} (h : mark ∉ front) (rest : List α) :
    splitAtEach mark (front ++ rest) = match splitAtEach mark rest with
      | [] => [front]
      | first :: more => (front ++ first) :: more := by
  induction front with
  | nil =>
    cases hsplit : splitAtEach mark rest with
    | nil => exact absurd hsplit (splitAtEach_ne_nil mark rest)
    | cons first more => simp [hsplit]
  | cons x front ih =>
    simp only [List.mem_cons, not_or] at h
    rw [List.cons_append, splitAtEach, if_neg (Ne.symm h.1), ih h.2]
    cases splitAtEach mark rest <;> rfl

theorem splitAtEach_flatMap {parts : List (List α)} (hparts : ∀ part ∈ parts, mark ∉ part) :
    splitAtEach mark (parts.flatMap (· ++ [mark])) = parts ++ [[]] := by
  induction parts with
  | nil => rfl
  | cons first rest ih =>
    rw [List.forall_mem_cons] at hparts
    rw [List.flatMap_cons, List.append_assoc, List.singleton_append,
      splitAtEach_append_cons mark hparts.1, ih hparts.2, List.cons_append]

/-- Ended lines without line ends in them are read back. -/
theorem linesBy_flatMap {lf cr : α} {lines : List (List α)}
    (h : ∀ line ∈ lines, lf ∉ line ∧ cr ∉ line) :
    linesBy lf cr (lines.flatMap (· ++ [lf])) = lines := by
  have hkept : ∀ line ∈ lines, dropOneAtEnd cr line = line := fun line hline =>
    if_neg fun hlast => (h line hline).2 (List.mem_of_getLast? hlast)
  rw [linesBy, splitAtEach_flatMap fun line hline => (h line hline).1, List.dropLast_concat,
    List.getLast?_concat, List.append_nil, List.map_congr_left hkept, List.map_id']

end Cutting

end TreeWatch
