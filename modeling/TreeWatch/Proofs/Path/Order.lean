import Mathlib.Data.List.Lex
import TreeWatch.Path.Basic

/-!
# The order of paths

Paths are put in order component by component, and components by what they are and then by the bytes
of their names. Only the components of a path have a say, so this orders places and not spellings.
-/

namespace TreeWatch

/-- Lists are in the order of their images under a map that keeps the elements apart. -/
theorem map_lt_map_iff {α β : Type} [LT β] {r : α → α → Prop} {f : α → β}
    (hf : Function.Injective f) (hr : ∀ x y, f x < f y ↔ r x y) (xs ys : List α) :
    xs.map f < ys.map f ↔ List.Lex r xs ys := by
  induction xs generalizing ys with
  | nil =>
    cases ys with
    | nil => exact iff_of_false nofun nofun
    | cons y ys => exact iff_of_true List.Lex.nil List.Lex.nil
  | cons x xs ih =>
    cases ys with
    | nil => exact iff_of_false nofun nofun
    | cons y ys =>
      rw [List.map_cons, List.map_cons, List.cons_lt_cons_iff, hr, hf.eq_iff, ih,
        List.cons_lex_cons_iff]

namespace Component

/-- What a component is, in the order of components. -/
def rank : Component → Nat
  | .root => 0
  | .here => 1
  | .up => 2
  | .name _ => 3

/-- The order of components: the root, a leading dot, the parent, then names by their bytes. -/
inductive Precedes : Component → Component → Prop where
  | kind {a b : Component} (h : a.rank < b.rank) : Precedes a b
  | bytes {a b : Bytes} (h : List.Lex (· < ·) a b) : Precedes (.name a) (.name b)

/-- The values of the bytes of a name. -/
def nameKey : Component → List Nat
  | .name bytes => bytes.map UInt8.toNat
  | .root | .here | .up => []

theorem key_eq (a : Component) : a.key = a.rank :: a.nameKey := by
  cases a <;> rfl

theorem key_injective : Function.Injective key := by
  have hbytes : Function.Injective (List.map UInt8.toNat) :=
    List.map_injective_iff.mpr fun _ _ => UInt8.toNat_inj.mp
  intro a b h
  rw [key_eq, key_eq, List.cons.injEq] at h
  cases a with
  | name x =>
    cases b with
    | name y => exact congrArg name (hbytes h.2)
    | root | here | up => cases h.1
  | root | here | up => cases b <;> first | rfl | cases h.1

theorem key_lt_iff (a b : Component) : a.key < b.key ↔ Precedes a b := by
  have hbytes : ∀ x y : Bytes, x.map UInt8.toNat < y.map UInt8.toNat ↔ List.Lex (· < ·) x y :=
    map_lt_map_iff (fun _ _ => UInt8.toNat_inj.mp) fun _ _ => UInt8.lt_iff_toNat_lt.symm
  rw [key_eq, key_eq, List.cons_lt_cons_iff]
  constructor
  · rintro (h | ⟨hrank, h⟩)
    · exact .kind h
    · cases a with
      | name x =>
        cases b with
        | name y => exact .bytes ((hbytes x y).mp h)
        | root | here | up => cases hrank
      | root | here | up => cases b <;> first | exact absurd h (List.lt_irrefl []) | cases hrank
  · rintro (h | h)
    · exact .inl h
    · exact .inr ⟨rfl, (hbytes _ _).mpr h⟩

end Component

namespace Path

variable {p q r : Path}

theorem key_eq_iff : p.key = q.key ↔ p.components = q.components :=
  (List.map_injective_iff.mpr Component.key_injective).eq_iff

/-- Paths are in the order of their first components that differ. -/
theorem precedes_iff :
    p.precedes q = true ↔ List.Lex Component.Precedes p.components q.components := by
  rw [precedes, decide_eq_true_eq]
  exact map_lt_map_iff Component.key_injective Component.key_lt_iff _ _

theorem precedes_trans (h : p.precedes q = true) (h' : q.precedes r = true) :
    p.precedes r = true := by
  rw [precedes, decide_eq_true_eq] at *
  exact lt_trans h h'

theorem precedes_of_not_precedes (h : p.precedes q = false) (hne : p.components ≠ q.components) :
    q.precedes p = true := by
  rw [precedes, decide_eq_false_iff_not] at h
  rw [precedes, decide_eq_true_eq]
  exact lt_of_le_of_ne (not_lt.mp h) fun heq => hne (key_eq_iff.mp heq.symm)

end Path

end TreeWatch
