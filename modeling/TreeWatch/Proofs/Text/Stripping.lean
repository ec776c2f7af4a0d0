import Mathlib.Data.List.DropRight
import Mathlib.Data.List.TakeWhile
import TreeWatch.Text.Blank

/-!
# Stripping

What stripping leaves of a text is the one stretch of it that has only blanks around it and none at
its own ends.
-/

namespace TreeWatch

/-- A text that neither begins nor ends with a blank. -/
structure IsTrim (text : List Char) : Prop where
  head : ∀ c, text.head? = some c → isBlank c = false
  last : ∀ c, text.getLast? = some c → isBlank c = false

abbrev AllBlank (text : List Char) : Prop := ∀ c ∈ text, isBlank c = true

/-- What is left of a text without the blanks around it. -/
def Strips (text core : List Char) : Prop :=
  ∃ front back, text = front ++ core ++ back ∧ AllBlank front ∧ AllBlank back ∧ IsTrim core

variable {text core front back : List Char} {c : Char}

theorem isTrim_singleton (h : isBlank c = false) : IsTrim [c] :=
  ⟨by simpa using h, by simpa using h⟩

theorem isTrim_of_forall_mem (h : ∀ c ∈ text, isBlank c = false) : IsTrim text :=
  ⟨fun c hc => h c (List.mem_of_mem_head? hc), fun c hc => h c (List.mem_of_getLast? hc)⟩

theorem dropWhileEnd_append_of_allBlank (h : AllBlank back) :
    dropWhileEnd isBlank (text ++ back) = dropWhileEnd isBlank text := by
  rw [dropWhileEnd, List.reverse_append, List.dropWhile_append_of_pos fun c hc =>
    h c (List.mem_reverse.mp hc), dropWhileEnd]

theorem dropWhileEnd_of_last (h : ∀ c, text.getLast? = some c → isBlank c = false) :
    dropWhileEnd isBlank text = text :=
  List.rdropWhile_eq_self_iff.mpr fun hne => by simp [h _ (List.getLast?_eq_some_getLast hne)]

theorem dropWhile_of_head (h : ∀ c, text.head? = some c → isBlank c = false) :
    text.dropWhile isBlank = text := by
  cases text with
  | nil => rfl
  | cons c text => rw [List.dropWhile_cons, h c rfl, if_neg (by decide)]

theorem IsTrim.strip_append (h : IsTrim core) (hback : AllBlank back) :
    strip (core ++ back) = core := by
  cases core with
  | nil =>
    rw [List.nil_append, strip, List.dropWhile_eq_nil_iff.mpr hback]
    rfl
  | cons c core =>
    rw [strip, dropWhile_of_head fun d hd => h.head d (by simpa using hd),
      dropWhileEnd_append_of_allBlank hback, dropWhileEnd_of_last h.last]

theorem Strips.strip_eq (h : Strips text core) : strip text = core := by
  obtain ⟨front, back, rfl, hfront, hback, hcore⟩ := h
  have hdrop : (front ++ core ++ back).dropWhile isBlank = (core ++ back).dropWhile isBlank := by
    rw [List.append_assoc, List.dropWhile_append_of_pos hfront]
  rw [strip, hdrop]
  exact hcore.strip_append hback

theorem strips_strip (text : List Char) : Strips text (strip text) := by
  have hcut : strip text ++ (text.dropWhile isBlank).rtakeWhile isBlank = text.dropWhile isBlank :=
    List.rdropWhile_append_rtakeWhile
  refine ⟨text.takeWhile isBlank, (text.dropWhile isBlank).rtakeWhile isBlank, ?_,
    fun c => List.mem_takeWhile_imp, fun c => List.mem_rtakeWhile_imp, fun c hc => ?_,
    fun c hc => ?_⟩
  · rw [List.append_assoc, hcut, List.takeWhile_append_dropWhile]
  · have hfirst := List.head?_dropWhile_not isBlank text
    rw [← hcut, List.head?_append, hc] at hfirst
    exact hfirst
  · have hne : strip text ≠ [] := fun h => by simp [h] at hc
    have hlast : ¬isBlank ((strip text).getLast hne) = true :=
      List.rdropWhile_last_not isBlank _ hne
    rw [List.getLast?_eq_some_getLast hne, Option.some.injEq] at hc
    rwa [hc, Bool.not_eq_true] at hlast

theorem strip_append_of_allBlank (hback : AllBlank back) : strip (text ++ back) = strip text := by
  obtain ⟨front, tail, htext, hfront, htail, hcore⟩ := strips_strip text
  refine Strips.strip_eq ⟨front, tail ++ back, by rw [← List.append_assoc, ← htext], hfront,
    fun c hc => ?_, hcore⟩
  exact (List.mem_append.mp hc).elim (htail c) (hback c)

theorem isTrim_strip (text : List Char) : IsTrim (strip text) := by
  obtain ⟨-, -, -, -, -, h⟩ := strips_strip text
  exact h

theorem strip_eq_iff : strip text = core ↔ Strips text core :=
  ⟨fun h => h ▸ strips_strip text, Strips.strip_eq⟩

end TreeWatch
