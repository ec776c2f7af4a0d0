import TreeWatch.Log.Mask
import TreeWatch.Proofs.Text.Numerals
import TreeWatch.Proofs.Text.Stripping

/-!
# How masks are read

Without the blanks around it a mask is a decimal numeral, or one of base sixteen behind `0x`. Every
numeral that fits into a word is read as its number, and one that does not fit is refused instead of
losing its highest bits, so that a mask comes back from each of its written forms.
-/

namespace TreeWatch

namespace Log

namespace Mask

variable {text form front back digits : List Char} {mask : Mask} {n : Nat} {c mark : Char}

/-- The letters that announce base sixteen behind a zero. -/
abbrev IsHexMark (mark : Char) : Prop := mark = 'x' ∨ mark = 'X'

/-- The texts, without the blanks around them, that write a number, and the number. -/
inductive Spells : List Char → Nat → Prop where
  | hexadecimal {mark : Char} {text : List Char} {n : Nat} (hmark : IsHexMark mark)
      (h : Numeral.Spells 16 text n) : Spells ('0' :: mark :: text) n
  | decimal {text : List Char} {n : Nat} (h : Numeral.Spells 10 text n) : Spells text n

/-- The ways to write a mask: in decimal, or in base sixteen with letters of either case. More zeros
may stand before the digits. -/
inductive Writes (mask : Mask) : List Char → Prop where
  | decimal (zeros : Nat) : Writes mask (List.replicate zeros '0' ++ Nat.toDigits 10 mask.toNat)
  | lower {mark : Char} (hmark : IsHexMark mark) (zeros : Nat) :
      Writes mask ('0' :: mark :: (List.replicate zeros '0' ++ Nat.toDigits 16 mask.toNat))
  | upper {mark : Char} (hmark : IsHexMark mark) (zeros : Nat) :
      Writes mask ('0' :: mark :: (List.replicate zeros '0' ++ (Nat.toDigits 16 mask.toNat).map
        Char.toUpper))

/-! ## Reading -/

def readCore (text : List Char) : Except NumeralError Nat :=
  match text with
  | '0' :: 'x' :: digits | '0' :: 'X' :: digits => Numeral.read 16 (Nat.pow 2 32) digits
  | digits => Numeral.read 10 (Nat.pow 2 32) digits

theorem read_eq (text : List Char) : read text = (readCore (strip text)).map UInt32.ofNat := rfl

theorem readCore_mark (hmark : IsHexMark mark) (digits : List Char) :
    readCore ('0' :: mark :: digits) = Numeral.read 16 (2 ^ 32) digits := by
  obtain rfl | rfl := hmark <;> rfl

theorem readCore_of_not_mark (h : ∀ mark digits, IsHexMark mark → text ≠ '0' :: mark :: digits) :
    readCore text = Numeral.read 10 (2 ^ 32) text := by
  unfold readCore
  split
  · exact absurd rfl (h 'x' _ (.inl rfl))
  · exact absurd rfl (h 'X' _ (.inr rfl))
  · rfl

theorem not_spells_mark (hmark : IsHexMark mark) :
    ¬Numeral.Spells 10 ('0' :: mark :: digits) n := by
  rw [Numeral.spells_cons_iff (by decide)]
  intro h
  obtain ⟨digit, hdigit⟩ := h.exists_isDigit (List.mem_cons_of_mem _ List.mem_cons_self)
  rw [← Numeral.digit?_eq_some_iff (by decide)] at hdigit
  obtain rfl | rfl := hmark <;> cases hdigit

theorem spells_mark_iff (hmark : IsHexMark mark) :
    Spells ('0' :: mark :: digits) n ↔ Numeral.Spells 16 digits n := by
  refine ⟨fun h => ?_, .hexadecimal hmark⟩
  cases h with
  | hexadecimal _ h => exact h
  | decimal h => exact absurd h (not_spells_mark hmark)

theorem spells_iff_of_not_mark (h : ∀ mark digits, IsHexMark mark → text ≠ '0' :: mark :: digits) :
    Spells text n ↔ Numeral.Spells 10 text n := by
  refine ⟨fun hspells => ?_, .decimal⟩
  cases hspells with
  | hexadecimal hmark _ => exact absurd rfl (h _ _ hmark)
  | decimal hspells => exact hspells

/-- A text announces base sixteen, or it is read in decimal. -/
theorem mark_cases (text : List Char) :
    (∃ mark digits, IsHexMark mark ∧ text = '0' :: mark :: digits) ∨
    ∀ mark digits, IsHexMark mark → text ≠ '0' :: mark :: digits := by
  by_cases h : ∃ mark digits, IsHexMark mark ∧ text = '0' :: mark :: digits
  · exact .inl h
  · exact .inr fun mark digits hmark htext => h ⟨mark, digits, hmark, htext⟩

theorem readCore_eq_ok_iff : readCore text = .ok n ↔ Spells text n ∧ n < 2 ^ 32 := by
  obtain ⟨mark, digits, hmark, rfl⟩ | hdecimal := mark_cases text
  · rw [readCore_mark hmark, spells_mark_iff hmark]
    exact Numeral.read_eq_ok_iff (by decide) (by decide) (by decide)
  · rw [readCore_of_not_mark hdecimal, spells_iff_of_not_mark hdecimal]
    exact Numeral.read_eq_ok_iff (by decide) (by decide) (by decide)

theorem readCore_eq_tooLarge (h : Spells text n) (hle : 2 ^ 32 ≤ n) :
    readCore text = .error .tooLarge := by
  obtain ⟨mark, digits, hmark, rfl⟩ | hdecimal := mark_cases text
  · rw [readCore_mark hmark]
    exact (Numeral.read_eq_tooLarge_iff (by decide) (by decide)).mpr
      ⟨digits, [], n, (List.append_nil _).symm, (spells_mark_iff hmark).mp h, hle⟩
  · rw [readCore_of_not_mark hdecimal]
    exact (Numeral.read_eq_tooLarge_iff (by decide) (by decide)).mpr
      ⟨text, [], n, (List.append_nil _).symm, (spells_iff_of_not_mark hdecimal).mp h, hle⟩

theorem read_eq_ok_iff : read text = .ok mask ↔ Spells (strip text) mask.toNat := by
  rw [read_eq]
  constructor
  · intro h
    cases hcore : readCore (strip text) with
    | error error => simp [hcore, Except.map] at h
    | ok n =>
      obtain ⟨hspells, hlt⟩ := readCore_eq_ok_iff.mp hcore
      obtain rfl : UInt32.ofNat n = mask := by simpa [hcore, Except.map] using h
      rwa [UInt32.toNat_ofNat_of_lt' hlt]
  · intro h
    rw [readCore_eq_ok_iff.mpr ⟨h, mask.toNat_lt⟩, Except.map, UInt32.ofNat_toNat]

/-! ## Written forms -/

theorem Writes.spells (h : Writes mask form) : Spells form mask.toNat := by
  have hdigits {base : Nat} (hone : 1 < base) (zeros : Nat) :
      Numeral.Writes base (List.replicate zeros '0' ++ Nat.toDigits base mask.toNat) mask.toNat :=
    (Numeral.writes_toDigits hone _).leadingZeros (by omega) zeros
  cases h with
  | decimal zeros => exact .decimal (.plain (by simp) (hdigits (by decide) zeros))
  | lower hmark zeros => exact .hexadecimal hmark (.plain (by simp) (hdigits (by decide) zeros))
  | upper hmark zeros =>
    have hupper := (Numeral.writes_toDigits (by decide : 1 < 16) mask.toNat).toUpper (by decide)
    exact .hexadecimal hmark (.plain (by simp) (hupper.leadingZeros (by decide) zeros))

theorem Spells.isBlank_eq_false (h : Spells form n) (hc : c ∈ form) : isBlank c = false := by
  have hdigits : ∀ digit < 16, isBlank digit.digitChar = false ∧
      isBlank digit.digitChar.toUpper = false := by
    decide
  have hwrites {base : Nat} {text : List Char} (hbase : base ≤ 16) (h : Numeral.Writes base text n)
      (hc : c ∈ text) : isBlank c = false := by
    obtain ⟨digit, hlt, rfl | rfl⟩ := h.exists_isDigit hc
    · exact (hdigits digit (by omega)).1
    · exact (hdigits digit (by omega)).2
  have hspells {base : Nat} {text : List Char} (hbase : base ≤ 16) (h : Numeral.Spells base text n)
      (hc : c ∈ text) : isBlank c = false := by
    cases h with
    | plain _ h => exact hwrites hbase h hc
    | signed _ h =>
      obtain rfl | hc := List.mem_cons.mp hc
      · rfl
      · exact hwrites hbase h hc
  cases h with
  | decimal h => exact hspells (by decide) h hc
  | hexadecimal hmark h =>
    obtain rfl | hc := List.mem_cons.mp hc
    · rfl
    · obtain rfl | hc := List.mem_cons.mp hc
      · obtain rfl | rfl := hmark <;> rfl
      · exact hspells (by decide) h hc

theorem Writes.read_padded (h : Writes mask form) (hfront : AllBlank front)
    (hback : AllBlank back) :
    read (front ++ form ++ back) = .ok mask := by
  have hform : IsTrim form := isTrim_of_forall_mem fun c => h.spells.isBlank_eq_false
  have hstrips : Strips (front ++ form ++ back) form := ⟨front, back, rfl, hfront, hback, hform⟩
  rw [read_eq_ok_iff, hstrips.strip_eq]
  exact h.spells

/-- Without the blanks around it, a text is read as a mask exactly if it is a numeral whose number
fits into a word, and then as that number. A numeral whose number does not fit is refused as too
large. Each way to write a mask, with any blanks around it, is read as that mask. -/
theorem masks_are_read_as_their_numerals (text : List Char) :
    (∀ core, Strips text core ↔ core = strip text) ∧
    (∀ mask, read text = .ok mask ↔ Spells (strip text) mask.toNat) ∧
    (∀ n, Spells (strip text) n → 2 ^ 32 ≤ n → read text = .error .tooLarge) ∧
    ∀ mask form front back, Writes mask form → AllBlank front → AllBlank back →
      read (front ++ form ++ back) = .ok mask := by
  refine ⟨fun core => strip_eq_iff.symm.trans eq_comm, fun mask => read_eq_ok_iff,
    fun n hspells hle => ?_,
    fun mask form front back => Writes.read_padded⟩
  rw [read_eq, readCore_eq_tooLarge hspells hle]
  rfl

/-- The first number that does not fit, behind a tab, a plus sign and a zero; and a word in upper
case letters between an ideographic space and a line end. -/
theorem masks_are_read_as_their_numerals_of_limit :
    (Spells (strip ['\t', '+', '0', '4', '2', '9', '4', '9', '6', '7', '2', '9', '6']) (2 ^ 32) ∧
      2 ^ 32 ≤ 2 ^ 32 ∧
      read ['\t', '+', '0', '4', '2', '9', '4', '9', '6', '7', '2', '9', '6'] = .error .tooLarge) ∧
    Writes 0xFFFFFFFE ['0', 'X', '0', 'F', 'F', 'F', 'F', 'F', 'F', 'F', 'E'] ∧
    AllBlank ['\u3000'] ∧
      AllBlank ['\n'] ∧
      read ['\u3000', '0', 'X', '0', 'F', 'F', 'F', 'F', 'F', 'F', 'F', 'E', '\n'] =
        .ok 0xFFFFFFFE := by
  have hlarge : Spells (strip ['\t', '+', '0', '4', '2', '9', '4', '9', '6', '7', '2', '9', '6'])
      (2 ^ 32) :=
    have hdigits : Nat.toDigits 10 (2 ^ 32) = ['4', '2', '9', '4', '9', '6', '7', '2', '9', '6'] :=
      rfl
    have hwrites := Numeral.writes_toDigits (by decide : 1 < 10) (2 ^ 32)
    .decimal (.signed (List.cons_ne_nil _ _) ((hdigits ▸ hwrites).leadingZeros (by decide) 1))
  have hform : Writes 0xFFFFFFFE ['0', 'X', '0', 'F', 'F', 'F', 'F', 'F', 'F', 'F', 'E'] :=
    .upper (.inr rfl) 1
  have hfront : AllBlank ['\u3000'] := List.forall_mem_singleton.mpr rfl
  have hback : AllBlank ['\n'] := List.forall_mem_singleton.mpr rfl
  obtain ⟨-, -, hrefused, hread⟩ :=
    masks_are_read_as_their_numerals ['\t', '+', '0', '4', '2', '9', '4', '9', '6', '7', '2',
      '9', '6']
  exact ⟨⟨hlarge, le_rfl, hrefused _ hlarge le_rfl⟩, hform, hfront, hback,
    hread _ _ _ _ hform hfront hback⟩

end Mask

end Log

end TreeWatch
