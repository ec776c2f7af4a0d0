import Mathlib.Data.List.Forall2
import Mathlib.Data.Nat.Digits.Defs
import Mathlib.Tactic.Ring
import TreeWatch.Text.Numeral

/-!
# Numerals

What a numeral writes is said by positional notation, the most significant digit first. Reading
compares with the limit at every digit, and yet it refuses a number exactly if the whole of it
reaches the limit: what the digits so far write only grows when more of them follow.
-/

namespace TreeWatch

namespace Numeral

variable {base limit value digit n : Nat} {c : Char} {text : List Char}

/-- A digit of a base of at most sixteen and its value. A letter counts in either case. -/
def IsDigit (base : Nat) (c : Char) (digit : Nat) : Prop :=
  digit < base ∧ (c = digit.digitChar ∨ c = digit.digitChar.toUpper)

/-- A row of digits, the most significant first, and the number that it writes. -/
def Writes (base : Nat) (text : List Char) (n : Nat) : Prop :=
  ∃ digits, List.Forall₂ (IsDigit base) text digits ∧ Nat.ofDigits base digits.reverse = n

/-- The numerals of a base and their numbers: one or more digits, with or without a plus sign before
them. -/
inductive Spells (base : Nat) : List Char → Nat → Prop where
  | plain {text : List Char} {n : Nat} (hne : text ≠ [])
      (h : Writes base text n) : Spells base text n
  | signed {text : List Char} {n : Nat} (hne : text ≠ [])
      (h : Writes base text n) : Spells base ('+' :: text) n

/-! ## Digits -/

theorem digit?_forms : ∀ digit < 16, digit? 16 digit.digitChar = some digit ∧
    digit? 16 digit.digitChar.toUpper = some digit := by decide

theorem digit?_eq_some_iff_of_sixteen (hbase : base ≤ 16) :
    digit? base c = some digit ↔ digit? 16 c = some digit ∧ digit < base := by
  simp only [digit?, Option.filter_eq_some_iff, decide_eq_true_eq, and_assoc]
  exact and_congr_right fun _ => ⟨fun hlt => ⟨by omega, hlt⟩, And.right⟩

theorem toNat_lt_of_digit? (h : digit? 16 c = some digit) : c.toNat < 123 := by
  by_contra hge
  have hdigit : ¬('0' ≤ c ∧ c ≤ '9') := fun ⟨_, hle⟩ => hge (Nat.lt_of_le_of_lt hle (by decide))
  have hlower : ¬('a' ≤ c ∧ c ≤ 'z') := fun ⟨_, hle⟩ => hge (Nat.lt_of_le_of_lt hle (by decide))
  have hupper : ¬('A' ≤ c ∧ c ≤ 'Z') := fun ⟨_, hle⟩ => hge (Nat.lt_of_le_of_lt hle (by decide))
  simp [digit?, hdigit, hlower, hupper] at h

theorem digit?_eq_some_iff (hbase : base ≤ 16) :
    digit? base c = some digit ↔ IsDigit base c digit := by
  have hsmall : ∀ code < 123, ∀ digit ∈ digit? 16 (.ofNat code),
      Char.ofNat code = digit.digitChar ∨ Char.ofNat code = digit.digitChar.toUpper := by decide
  rw [digit?_eq_some_iff_of_sixteen hbase, IsDigit, and_comm]
  refine and_congr_right fun hlt => ⟨fun h => ?_, ?_⟩
  · have hform := hsmall c.toNat (toNat_lt_of_digit? h)
    rw [Char.ofNat_toNat] at hform
    exact hform digit h
  · obtain ⟨hlower, hupper⟩ := digit?_forms digit (by omega)
    rintro (rfl | rfl)
    · exact hlower
    · exact hupper

theorem digit?_digitChar (hlt : digit < base) (hbase : base ≤ 16) :
    digit? base digit.digitChar = some digit :=
  (digit?_eq_some_iff hbase).mpr ⟨hlt, .inl rfl⟩

theorem IsDigit.toUpper (hbase : base ≤ 16) (h : IsDigit base c digit) :
    IsDigit base c.toUpper digit := by
  have htwice : ∀ digit < 16, digit.digitChar.toUpper.toUpper = digit.digitChar.toUpper := by decide
  obtain ⟨hlt, rfl | rfl⟩ := h
  · exact ⟨hlt, .inr rfl⟩
  · exact ⟨hlt, .inr (htwice digit (by omega))⟩

theorem not_isDigit_plus (hbase : base ≤ 16) (digit : Nat) : ¬IsDigit base '+' digit := by
  rw [← digit?_eq_some_iff hbase]
  exact fun h => by cases h

/-! ## Rows of digits -/

@[simp] theorem writes_nil : Writes base [] n ↔ n = 0 := by
  simp [Writes, List.forall₂_nil_left_iff, eq_comm]

theorem writes_cons : Writes base (c :: text) n ↔
    ∃ digit rest, IsDigit base c digit ∧ Writes base text rest ∧
      digit * base ^ text.length + rest = n := by
  simp only [Writes, List.forall₂_cons_left_iff]
  constructor
  · rintro ⟨_, ⟨digit, digits, hdigit, hdigits, rfl⟩, rfl⟩
    refine ⟨digit, _, hdigit, ⟨digits, hdigits, rfl⟩, ?_⟩
    rw [List.reverse_cons, Nat.ofDigits_append, Nat.ofDigits_singleton, List.length_reverse,
      hdigits.length_eq]
    ring
  · rintro ⟨digit, _, hdigit, ⟨digits, hdigits, rfl⟩, rfl⟩
    refine ⟨digit :: digits, ⟨digit, digits, hdigit, hdigits, rfl⟩, ?_⟩
    rw [List.reverse_cons, Nat.ofDigits_append, Nat.ofDigits_singleton, List.length_reverse,
      hdigits.length_eq]
    ring

theorem writes_cons_of_digit? (hbase : base ≤ 16) (hc : digit? base c = some digit) :
    Writes base (c :: text) n ↔ ∃ rest, Writes base text rest ∧
      digit * base ^ text.length + rest = n := by
  rw [writes_cons]
  constructor
  · rintro ⟨other, rest, hother, hrest⟩
    obtain rfl : other = digit := Option.some.inj
      (((digit?_eq_some_iff hbase).mpr hother).symm.trans hc)
    exact ⟨rest, hrest⟩
  · rintro ⟨rest, hrest⟩
    exact ⟨digit, rest, (digit?_eq_some_iff hbase).mp hc, hrest⟩

theorem not_writes_cons (hbase : base ≤ 16) (hc : digit? base c = none) :
    ¬Writes base (c :: text) n := by
  rw [writes_cons]
  rintro ⟨digit, -, hdigit, -⟩
  cases hc.symm.trans ((digit?_eq_some_iff hbase).mpr hdigit)

theorem Writes.concat (h : Writes base text n) (hdigit : IsDigit base c digit) :
    Writes base (text ++ [c]) (n * base + digit) := by
  obtain ⟨digits, hdigits, rfl⟩ := h
  refine ⟨digits ++ [digit], List.rel_append hdigits (.cons hdigit .nil), ?_⟩
  rw [List.reverse_append, List.reverse_singleton, List.singleton_append, Nat.ofDigits_cons]
  ring

theorem Writes.leadingZeros (hbase : 0 < base) (h : Writes base text n) (zeros : Nat) :
    Writes base (List.replicate zeros '0' ++ text) n := by
  induction zeros with
  | zero => exact h
  | succ zeros ih => exact writes_cons.mpr ⟨0, n, ⟨hbase, .inl rfl⟩, ih, by omega⟩

theorem Writes.toUpper (hbase : base ≤ 16) (h : Writes base text n) :
    Writes base (text.map Char.toUpper) n := by
  obtain ⟨digits, hdigits, hn⟩ := h
  exact ⟨digits, List.forall₂_map_left_iff.mpr (hdigits.imp fun _ _ => IsDigit.toUpper hbase), hn⟩

theorem Writes.exists_isDigit (h : Writes base text n) (hc : c ∈ text) :
    ∃ digit, IsDigit base c digit := by
  obtain ⟨digits, hdigits, -⟩ := h
  induction hdigits with
  | nil => cases hc
  | cons hdigit _ ih =>
    obtain rfl | hc := List.mem_cons.mp hc
    · exact ⟨_, hdigit⟩
    · exact ih hc

/-- The digits of a number write it. -/
theorem writes_toDigits (hone : 1 < base) (n : Nat) : Writes base (Nat.toDigits base n) n := by
  induction n using Nat.strongRecOn with
  | ind n ih =>
    have hdigit {digit : Nat} (hlt : digit < base) : IsDigit base digit.digitChar digit :=
      ⟨hlt, .inl rfl⟩
    rw [Nat.toDigits_eq_if hone]
    split
    · next hlt => exact writes_cons.mpr ⟨n, 0, hdigit hlt, writes_nil.mpr rfl, by simp⟩
    · next hge =>
      have hfront := ih (n / base) (Nat.div_lt_self (by omega) hone)
      simpa only [Nat.div_add_mod'] using hfront.concat (hdigit (Nat.mod_lt n (by omega)))

/-! ## Reading -/

/-- One more digit, seen from the front and from the back. -/
theorem shift_digit (base value digit rest count : Nat) :
    value * base ^ (count + 1) + (digit * base ^ count + rest) = (value * base + digit) * base ^
      count + rest := by
  ring

/-- What is read counts behind what was read before, and the whole stays below the limit. -/
theorem readDigits_eq_ok_iff (hbase : base ≤ 16) (hpos : 0 < base) (hvalue : value < limit) :
    readDigits base limit text value = .ok n ↔
      ∃ rest, Writes base text rest ∧ value * base ^ text.length + rest = n ∧ n < limit := by
  induction text generalizing value with
  | nil =>
    simp only [readDigits, Except.ok.injEq, writes_nil, exists_eq_left, List.length_nil,
      pow_zero, mul_one, add_zero]
    exact ⟨fun h => ⟨h, h ▸ hvalue⟩, And.left⟩
  | cons c text ih =>
    rw [readDigits]
    cases hc : digit? base c with
    | none => exact iff_of_false nofun fun ⟨_, hrest, _⟩ => not_writes_cons hbase hc hrest
    | some digit =>
      have hcons : (∃ rest, Writes base (c :: text) rest ∧
            value * base ^ (c :: text).length + rest = n ∧ n < limit) ↔
          ∃ rest, Writes base text rest ∧ (value * base + digit) * base ^ text.length + rest = n ∧
              n < limit := by
        simp only [writes_cons_of_digit? hbase hc, List.length_cons]
        constructor
        · rintro ⟨_, ⟨rest, hrest, rfl⟩, hn⟩
          exact ⟨rest, hrest, by rwa [← shift_digit]⟩
        · rintro ⟨rest, hrest, hn⟩
          exact ⟨_, ⟨rest, hrest, rfl⟩, by rwa [shift_digit]⟩
      rw [hcons]
      dsimp only
      split
      · next hlt => exact ih hlt
      · next hge =>
        refine iff_of_false nofun ?_
        rintro ⟨rest, -, rfl, hn⟩
        have hle := Nat.le_mul_of_pos_right (value * base + digit)
          (Nat.pow_pos (n := text.length) hpos)
        omega

theorem readDigits_eq_tooLarge_iff (hbase : base ≤ 16) (hvalue : value < limit) :
    readDigits base limit text value = .error .tooLarge ↔
      ∃ front back rest, text = front ++ back ∧ Writes base front rest ∧
        limit ≤ value * base ^ front.length + rest := by
  have hempty {value rest : Nat} (hvalue : value < limit) (hrest : Writes base [] rest) :
      ¬limit ≤ value * base ^ List.length (α := Char) [] + rest := by
    obtain rfl := writes_nil.mp hrest
    simpa using hvalue
  induction text generalizing value with
  | nil =>
    refine iff_of_false nofun ?_
    rintro ⟨front, back, rest, htext, hrest, hle⟩
    obtain ⟨rfl, -⟩ := List.append_eq_nil_iff.mp htext.symm
    exact hempty hvalue hrest hle
  | cons c text ih =>
    rw [readDigits]
    cases hc : digit? base c with
    | none =>
      refine iff_of_false nofun ?_
      rintro ⟨_ | ⟨first, front⟩, back, rest, htext, hrest, hle⟩
      · exact hempty hvalue hrest hle
      · obtain ⟨rfl, -⟩ := List.cons.inj htext
        exact not_writes_cons hbase hc hrest
    | some digit =>
      dsimp only
      split
      · next hlt =>
        refine (ih hlt).trans ⟨?_, ?_⟩
        · rintro ⟨front, back, rest, rfl, hrest, hle⟩
          exact ⟨c :: front, back, _, rfl, (writes_cons_of_digit? hbase hc).mpr ⟨rest, hrest, rfl⟩,
            by rwa [List.length_cons, shift_digit]⟩
        · rintro ⟨_ | ⟨first, front⟩, back, whole, htext, hwhole, hle⟩
          · exact absurd hle (hempty hvalue hwhole)
          · obtain ⟨rfl, rfl⟩ := List.cons.inj htext
            obtain ⟨rest, hrest, rfl⟩ := (writes_cons_of_digit? hbase hc).mp hwhole
            exact ⟨front, back, rest, rfl, hrest, by rwa [List.length_cons, shift_digit] at hle⟩
      · next hge =>
        have hwrites : Writes base [c] digit :=
          (writes_cons_of_digit? hbase hc).mpr ⟨0, writes_nil.mpr rfl, by simp⟩
        exact iff_of_true rfl ⟨[c], text, digit, rfl, hwrites, by simpa using Nat.not_lt.mp hge⟩

/-! ## Whole numerals -/

theorem not_spells_nil : ¬Spells base [] n := by
  rintro (⟨hne, -⟩ | -)
  exact hne rfl

theorem spells_plus_iff (hbase : base ≤ 16) :
    Spells base ('+' :: text) n ↔ text ≠ [] ∧ Writes base text n := by
  refine ⟨fun h => ?_, fun ⟨hne, h⟩ => .signed hne h⟩
  cases h with
  | plain hne h =>
    obtain ⟨digit, hdigit⟩ := h.exists_isDigit List.mem_cons_self
    exact absurd hdigit (not_isDigit_plus hbase digit)
  | signed hne h => exact ⟨hne, h⟩

theorem spells_cons_iff (hc : c ≠ '+') : Spells base (c :: text) n ↔ Writes base (c :: text) n := by
  refine ⟨fun h => ?_, fun h => .plain (List.cons_ne_nil c text) h⟩
  cases h with
  | plain hne h => exact h
  | signed hne h => exact absurd rfl hc

theorem read_plus (hne : text ≠ []) :
    read base limit ('+' :: text) = readDigits base limit text 0 := by
  obtain ⟨c, text, rfl⟩ := List.exists_cons_of_ne_nil hne
  rfl

theorem read_plus_eq_tooLarge_iff :
    read base limit ('+' :: text) = .error .tooLarge ↔
      readDigits base limit text 0 = .error .tooLarge := by
  by_cases hne : text = []
  · subst hne
    exact iff_of_false nofun nofun
  · rw [read_plus hne]

theorem read_cons (hc : c ≠ '+') :
    read base limit (c :: text) = readDigits base limit (c :: text) 0 := by
  unfold read
  split
  · next heq => cases heq
  · next heq => exact absurd (List.cons.inj heq).1 hc
  · next heq => exact absurd (List.cons.inj heq).1 hc
  · rfl

theorem readDigits_zero_eq_ok_iff (hbase : base ≤ 16) (hpos : 0 < base) (hlimit : 0 < limit) :
    readDigits base limit text 0 = .ok n ↔ Writes base text n ∧ n < limit := by
  rw [readDigits_eq_ok_iff hbase hpos hlimit]
  simp

theorem readDigits_zero_eq_tooLarge_iff (hbase : base ≤ 16) (hlimit : 0 < limit) :
    readDigits base limit text 0 = .error .tooLarge ↔
      ∃ front back n, front ≠ [] ∧ text = front ++ back ∧ Writes base front n ∧ limit ≤ n := by
  rw [readDigits_eq_tooLarge_iff hbase hlimit]
  constructor
  · rintro ⟨front, back, n, htext, hfront, hle⟩
    rw [Nat.zero_mul, Nat.zero_add] at hle
    refine ⟨front, back, n, ?_, htext, hfront, hle⟩
    rintro rfl
    obtain rfl := writes_nil.mp hfront
    omega
  · rintro ⟨front, back, n, -, htext, hfront, hle⟩
    exact ⟨front, back, n, htext, hfront, by omega⟩

/-- What is read are the numerals whose numbers stay below the limit. -/
theorem read_eq_ok_iff (hbase : base ≤ 16) (hpos : 0 < base) (hlimit : 0 < limit) :
    read base limit text = .ok n ↔ Spells base text n ∧ n < limit := by
  cases text with
  | nil => exact iff_of_false nofun fun h => not_spells_nil h.1
  | cons c text =>
    by_cases hc : c = '+'
    · subst hc
      rw [spells_plus_iff hbase]
      by_cases hne : text = []
      · subst hne
        exact iff_of_false nofun fun h => h.1.1 rfl
      · rw [read_plus hne, readDigits_zero_eq_ok_iff hbase hpos hlimit]
        simp [hne]
    · rw [read_cons hc, spells_cons_iff hc, readDigits_zero_eq_ok_iff hbase hpos hlimit]

/-- A text is refused as too large exactly if a numeral that it begins with reaches the limit. -/
theorem read_eq_tooLarge_iff (hbase : base ≤ 16) (hlimit : 0 < limit) :
    read base limit text = .error .tooLarge ↔
      ∃ front back n, text = front ++ back ∧ Spells base front n ∧ limit ≤ n := by
  cases text with
  | nil =>
    refine iff_of_false nofun ?_
    rintro ⟨front, back, n, htext, hspells, -⟩
    obtain ⟨rfl, -⟩ := List.append_eq_nil_iff.mp htext.symm
    exact not_spells_nil hspells
  | cons c text =>
    by_cases hc : c = '+'
    · subst hc
      rw [read_plus_eq_tooLarge_iff, readDigits_zero_eq_tooLarge_iff hbase hlimit]
      constructor
      · rintro ⟨front, back, n, hne, rfl, hfront, hle⟩
        exact ⟨'+' :: front, back, n, rfl, .signed hne hfront, hle⟩
      · rintro ⟨_ | ⟨first, front⟩, back, n, htext, hspells, hle⟩
        · exact absurd hspells not_spells_nil
        · obtain ⟨rfl, rfl⟩ := List.cons.inj htext
          obtain ⟨hne, hfront⟩ := (spells_plus_iff hbase).mp hspells
          exact ⟨front, back, n, hne, rfl, hfront, hle⟩
    · rw [read_cons hc, readDigits_zero_eq_tooLarge_iff hbase hlimit]
      constructor
      · rintro ⟨front, back, n, hne, htext, hfront, hle⟩
        exact ⟨front, back, n, htext, .plain hne hfront, hle⟩
      · rintro ⟨_ | ⟨first, front⟩, back, n, htext, hspells, hle⟩
        · exact absurd hspells not_spells_nil
        · obtain ⟨rfl, rfl⟩ := List.cons.inj htext
          exact ⟨_, back, n, List.cons_ne_nil _ _, htext, (spells_cons_iff hc).mp hspells, hle⟩

end Numeral

end TreeWatch
