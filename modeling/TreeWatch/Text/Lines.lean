import TreeWatch.Text.Utf8

/-!
# Lines

Control input arrives as bytes and is cut into lines before anything is known to be text; a listing
that is already text is cut the same way.
-/

namespace TreeWatch

/-- The stretches between occurrences of `mark`: one more than there are occurrences. -/
def splitAtEach {α : Type} [DecidableEq α] (mark : α) : List α → List (List α)
  | [] => [[]]
  | x :: xs =>
    if x = mark then [] :: splitAtEach mark xs
    else match splitAtEach mark xs with
      | [] => [[x]]
      | first :: more => (x :: first) :: more

/-- The inverse of `splitAtEach`. -/
def joinWith {α : Type} (mark : α) : List (List α) → List α
  | [] => []
  | [only] => only
  | first :: second :: more => first ++ mark :: joinWith mark (second :: more)

theorem splitAtEach_ne_nil {α : Type} [DecidableEq α] (mark : α) (xs : List α) :
    splitAtEach mark xs ≠ [] := by
  cases xs with
  | nil => simp [splitAtEach]
  | cons x xs =>
    rw [splitAtEach]
    split
    · simp
    · split <;> simp

theorem joinWith_splitAtEach {α : Type} [DecidableEq α] (mark : α) (xs : List α) :
    joinWith mark (splitAtEach mark xs) = xs := by
  induction xs with
  | nil => rfl
  | cons x xs ih =>
    have hne := splitAtEach_ne_nil mark xs
    rw [splitAtEach]
    split
    · next h =>
      cases hs : splitAtEach mark xs with
      | nil => exact absurd hs hne
      | cons first more => simp [joinWith, ← hs, ih, h]
    · cases hs : splitAtEach mark xs with
      | nil => exact absurd hs hne
      | cons first more =>
        rw [hs] at ih
        cases more with
        | nil => simpa [joinWith] using ih
        | cons second more => simpa [joinWith] using ih

theorem splitAtEach_append {α : Type} [DecidableEq α] (mark : α) (front rest : List α) :
    splitAtEach mark (front ++ mark :: rest) = splitAtEach mark front ++ splitAtEach mark rest := by
  induction front with
  | nil => simp [splitAtEach]
  | cons x xs ih =>
    rw [List.cons_append, splitAtEach, splitAtEach, ih]
    split
    · rfl
    · cases hsplit : splitAtEach mark xs with
      | nil => exact absurd hsplit (splitAtEach_ne_nil mark xs)
      | cons first more => rfl

theorem notMem_of_mem_splitAtEach {α : Type} [DecidableEq α] {mark : α} {xs part : List α}
    (h : part ∈ splitAtEach mark xs) : mark ∉ part := by
  induction xs generalizing part with
  | nil =>
    obtain rfl : part = [] := by simpa [splitAtEach] using h
    simp
  | cons x xs ih =>
    rw [splitAtEach] at h
    split at h
    · rcases List.mem_cons.mp h with rfl | h
      · simp
      · exact ih h
    · next hx =>
      cases hsplit : splitAtEach mark xs with
      | nil => exact absurd hsplit (splitAtEach_ne_nil mark xs)
      | cons first more =>
        rw [hsplit] at h ih
        rcases List.mem_cons.mp h with rfl | h
        · exact fun hmem => (List.mem_cons.mp hmem).elim (Ne.symm hx) (ih List.mem_cons_self)
        · exact ih (List.mem_cons_of_mem _ h)

def dropOneAtEnd {α : Type} [DecidableEq α] (cr : α) (line : List α) : List α :=
  if line.getLast? = some cr then line.dropLast else line

/-- Lines ended by `lf`, each without one `cr` before it. A last line without its `lf` counts if it
holds anything, and keeps its `cr`: only the pair is a line end. -/
def linesBy {α : Type} [DecidableEq α] (lf cr : α) (content : List α) : List (List α) :=
  let stretches := splitAtEach lf content
  stretches.dropLast.map (dropOneAtEnd cr) ++
    match stretches.getLast? with
    | none | some [] => []
    | some last => [last]

def Bytes.lines (bytes : Bytes) : List Bytes := linesBy 10 13 bytes

def textLines (text : List Char) : List (List Char) := linesBy '\n' '\r' text

end TreeWatch
