import Mathlib.Tactic.SplitIfs
import TreeWatch.Proofs.Text.Stretches

/-!
# Text and its bytes

Reading bytes as text undoes encoding: the bytes that are text are the encoded ones, and each has
one text. A character of one byte has no part in the form of another character, so a text may be cut
at such characters before or after it is encoded.
-/

namespace TreeWatch

namespace Utf8

/-! ## The forms of code points -/

/-- The values of the bytes that follow a leading one. -/
abbrev Continues (b : UInt8) : Prop := 0x80 ≤ b.toNat ∧ b.toNat ≤ 0xBF

/-- The code points and their forms. The first follower is bounded where a code point would have a
shorter form, would be a surrogate or would be too large. -/
inductive Form : Bytes → Nat → Prop where
  | one {b : UInt8} (hb : b.toNat < 0x80) : Form [b] b.toNat
  | two {b f : UInt8} (hb : 0xC2 ≤ b.toNat ∧ b.toNat < 0xE0) (hf : Continues f) :
      Form [b, f] ((b.toNat - 0xC0) * 0x40 + (f.toNat - 0x80))
  | three {b f g : UInt8} (hb : 0xE0 ≤ b.toNat ∧ b.toNat < 0xF0) (hf : Continues f)
      (hg : Continues g) (hlow : b.toNat = 0xE0 → 0xA0 ≤ f.toNat) (hhigh : b.toNat = 0xED →
        f.toNat ≤ 0x9F) :
      Form [b, f, g] (((b.toNat - 0xE0) * 0x40 + (f.toNat - 0x80)) * 0x40 + (g.toNat - 0x80))
  | four {b f g k : UInt8} (hb : 0xF0 ≤ b.toNat ∧ b.toNat < 0xF5) (hf : Continues f)
      (hg : Continues g) (hk : Continues k) (hlow : b.toNat = 0xF0 →
        0x90 ≤ f.toNat) (hhigh : b.toNat = 0xF4 → f.toNat ≤ 0x8F) :
      Form [b, f, g, k]
        ((((b.toNat - 0xF0) * 0x40 + (f.toNat - 0x80)) * 0x40 + (g.toNat - 0x80)) * 0x40 +
          (k.toNat - 0x80))

variable {b f : UInt8} {c : Char} {n m count : Nat} {tail rest bytes : Bytes} {text : List Char}
  {lead : Lead}

theorem lead?_eq (b : UInt8) : lead? b =
    if b.toNat < 0x80 then some ⟨b.toNat, 0, 0x80, 0xBF⟩
    else if b.toNat < 0xC2 then none
    else if b.toNat < 0xE0 then some ⟨b.toNat - 0xC0, 1, 0x80, 0xBF⟩
    else if b.toNat < 0xF0 then
      some ⟨b.toNat - 0xE0, 2, if b.toNat = 0xE0 then 0xA0 else 0x80,
        if b.toNat = 0xED then 0x9F else 0xBF⟩
    else if b.toNat < 0xF5 then
      some ⟨b.toNat - 0xF0, 3, if b.toNat = 0xF0 then 0x90 else 0x80,
        if b.toNat = 0xF4 then 0x8F else 0xBF⟩
    else none := by
  unfold lead?
  simp only [UInt8.lt_iff_toNat_lt, ← UInt8.toNat_inj, UInt8.reduceToNat]
  iterate 3 refine if_congr Iff.rfl rfl ?_
  -- The narrowed ranges are written as branches of their own there, and as bounds here.
  by_cases hthree : b.toNat < 0xF0
  · rw [if_pos hthree]
    by_cases hlow : b.toNat = 0xE0
    · simp [hlow]
    · by_cases hhigh : b.toNat = 0xED <;> simp [hlow, hhigh, hthree]
  · rw [if_neg hthree, if_neg (by omega), if_neg (by omega), if_neg hthree]
    by_cases hlow : b.toNat = 0xF0
    · simp [hlow]
    · by_cases hhigh : b.toNat = 0xF4
      · simp [hhigh]
      · have hfour : b.toNat < 0xF4 ↔ b.toNat < 0xF5 := by omega
        simp only [hlow, hhigh, hfour, if_false]

theorem continues_iff : Continues b ↔ 0x80 ≤ b ∧ b ≤ 0xBF := by
  simp [Continues, UInt8.le_iff_toNat_le]

theorem Form.of_eq (h : Form bytes n) (hn : n = m) : Form bytes m := hn ▸ h

theorem Form.isValidChar (h : Form bytes n) : n.isValidChar := by
  unfold Nat.isValidChar
  cases h <;> omega

theorem Form.toNat_ofNat (h : Form bytes n) : (Char.ofNat n).toNat = n := by
  rw [Char.ofNat, dif_pos h.isValidChar]
  rfl

theorem Form.exists_cons (h : Form bytes n) : ∃ b tail, bytes = b :: tail := by
  cases h <;> exact ⟨_, _, rfl⟩

theorem Form.eq_singleton_of_mem (h : Form bytes n) (hmem : b ∈ bytes) (hb : b.toNat < 0x80) :
    bytes = [b] := by
  cases h with
  | one => rw [List.mem_singleton.mp hmem]
  | two hb hf =>
    simp only [List.mem_cons, List.not_mem_nil, or_false, ← UInt8.toNat_inj] at hmem
    omega
  | three hb hf hg =>
    simp only [List.mem_cons, List.not_mem_nil, or_false, ← UInt8.toNat_inj] at hmem
    omega
  | four hb hf hg hk =>
    simp only [List.mem_cons, List.not_mem_nil, or_false, ← UInt8.toNat_inj] at hmem
    omega

theorem Form.encodeChar_ofNat (h : Form bytes n) : encodeChar (.ofNat n) = bytes := by
  unfold encodeChar
  rw [h.toNat_ofNat]
  dsimp only
  cases h with
  | one hb => rw [if_pos hb, UInt8.ofNat_toNat]
  | two hb hf =>
    rw [if_neg (by omega), if_pos (by omega)]
    simp only [List.cons.injEq, ← UInt8.toNat_inj, UInt8.toNat_ofNat', and_true]
    omega
  | three hb hf hg hlow hhigh =>
    rw [if_neg (by omega), if_neg (by omega), if_pos (by omega)]
    simp only [List.cons.injEq, ← UInt8.toNat_inj, UInt8.toNat_ofNat', and_true]
    omega
  | four hb hf hg hk hlow hhigh =>
    rw [if_neg (by omega), if_neg (by omega), if_neg (by omega)]
    simp only [List.cons.injEq, ← UInt8.toNat_inj, UInt8.toNat_ofNat', and_true]
    omega

theorem form_encodeChar (c : Char) : Form (encodeChar c) c.toNat := by
  have hvalid : c.toNat < 0xD800 ∨ 0xDFFF < c.toNat ∧ c.toNat < 0x110000 := c.valid
  unfold encodeChar
  generalize c.toNat = n at *
  dsimp only
  have hbyte {m : Nat} (hm : m < 256) : (UInt8.ofNat m).toNat = m := by simpa using hm
  have hk := hbyte (show 0x80 + n % 0x40 < 256 by omega)
  have hg := hbyte (show 0x80 + n / 0x40 % 0x40 < 256 by omega)
  have hf := hbyte (show 0x80 + n / 0x1000 % 0x40 < 256 by omega)
  split_ifs with h1 h2 h3
  · have hb := hbyte (show n < 256 by omega)
    exact (Form.one (by omega)).of_eq hb
  · have hb := hbyte (show 0xC0 + n / 0x40 < 256 by omega)
    refine (Form.two ?_ ?_).of_eq ?_
    all_goals omega
  · have hb := hbyte (show 0xE0 + n / 0x1000 < 256 by omega)
    refine (Form.three ?_ ?_ ?_ ?_ ?_).of_eq ?_
    all_goals omega
  · have hb := hbyte (show 0xF0 + n / 0x40000 < 256 by omega)
    refine (Form.four ?_ ?_ ?_ ?_ ?_ ?_).of_eq ?_
    all_goals omega

theorem first_iff {p q : Prop} [Decidable p] [Decidable q] (low high : UInt8)
    (hlow : 0x80 ≤ low.toNat) (hhigh : high.toNat ≤ 0xBF) :
    ((if p then low else 0x80) ≤ f ∧ f ≤ if q then high else 0xBF) ↔
      Continues f ∧ (p → low.toNat ≤ f.toNat) ∧ (q → f.toNat ≤ high.toNat) := by
  by_cases hp : p <;> by_cases hq : q <;> simp [hp, hq, UInt8.le_iff_toNat_le] <;> omega

theorem followers_cons {low high : UInt8} (hf : low ≤ f ∧ f ≤ high) :
    followers (count + 1) low high (f :: rest) = f :: followers count 0x80 0xBF rest := by
  rw [followers, if_pos hf]

theorem exists_cons_of_followers {low high : UInt8}
    (h : (followers (count + 1) low high rest).length = count + 1) :
    ∃ f more, rest = f :: more ∧ (low ≤ f ∧ f ≤ high) ∧
      (followers count 0x80 0xBF more).length = count := by
  cases rest with
  | nil => simp [followers] at h
  | cons f more =>
    by_cases hf : low ≤ f ∧ f ≤ high
    · rw [followers_cons hf] at h
      exact ⟨f, more, rfl, hf, by simpa using h⟩
    · simp [followers, hf] at h

theorem Form.headPiece_append (h : Form (b :: tail) n) (rest : Bytes) :
    headPiece b (tail ++ rest) = (.char (.ofNat n), tail.length) := by
  have hlead := lead?_eq b
  cases h with
  | one hb =>
    rw [if_pos hb] at hlead
    simp [headPiece, hlead, followers]
  | two hb hf =>
    rw [if_neg (by omega), if_neg (by omega), if_pos (by omega)] at hlead
    simp [headPiece, hlead, followers, continues_iff.mp hf]
  | three hb hf hg hlow hhigh =>
    rw [if_neg (by omega), if_neg (by omega), if_neg (by omega), if_pos (by omega)] at hlead
    have hfirst := (first_iff 0xA0 0x9F (by decide) (by decide)).mpr ⟨hf, hlow, hhigh⟩
    simp [headPiece, hlead, followers_cons hfirst, followers, continues_iff.mp hg]
  | four hb hf hg hk hlow hhigh =>
    rw [if_neg (by omega), if_neg (by omega), if_neg (by omega), if_neg (by omega),
      if_pos (by omega)] at hlead
    have hfirst := (first_iff 0x90 0x8F (by decide) (by decide)).mpr ⟨hf, hlow, hhigh⟩
    simp [headPiece, hlead, followers_cons hfirst, followers, continues_iff.mp hg,
      continues_iff.mp hk]

/-- A leading byte and the followers that it announces are a form. -/
theorem exists_form (hlead : lead? b = some lead)
    (h : (followers lead.followers lead.low lead.high rest).length = lead.followers) :
    ∃ tail more n, rest = tail ++ more ∧ Form (b :: tail) n := by
  rw [lead?_eq] at hlead
  split at hlead
  · exact ⟨[], rest, _, rfl, .one (by omega)⟩
  split at hlead
  · cases hlead
  split at hlead
  · cases Option.some.inj hlead
    obtain ⟨f, more, rfl, hf, -⟩ := exists_cons_of_followers h
    exact ⟨[f], more, _, rfl, .two (by omega) (continues_iff.mpr hf)⟩
  split at hlead
  · cases Option.some.inj hlead
    obtain ⟨f, _, rfl, hf, h⟩ := exists_cons_of_followers h
    obtain ⟨g, more, rfl, hg, -⟩ := exists_cons_of_followers h
    obtain ⟨hf, hlow, hhigh⟩ := (first_iff 0xA0 0x9F (by decide) (by decide)).mp hf
    exact ⟨[f, g], more, _, rfl, .three (by omega) hf (continues_iff.mpr hg) hlow hhigh⟩
  split at hlead
  · cases Option.some.inj hlead
    obtain ⟨f, _, rfl, hf, h⟩ := exists_cons_of_followers h
    obtain ⟨g, _, rfl, hg, h⟩ := exists_cons_of_followers h
    obtain ⟨k, more, rfl, hk, -⟩ := exists_cons_of_followers h
    obtain ⟨hf, hlow, hhigh⟩ := (first_iff 0x90 0x8F (by decide) (by decide)).mp hf
    exact ⟨[f, g, k], more, _, rfl,
      .four (by omega) hf (continues_iff.mpr hg) (continues_iff.mpr hk) hlow hhigh⟩
  · cases hlead

/-- A character at the front of bytes stands there in its form. -/
theorem form_of_headPiece (h : headPiece b rest = (.char c, count)) :
    ∃ tail more, rest = tail ++ more ∧ count = tail.length ∧ encodeChar c = b :: tail := by
  obtain ⟨tail, more, n, rfl, hform⟩ : ∃ tail more n, rest = tail ++ more ∧ Form (b :: tail) n := by
    unfold headPiece at h
    cases hlead : lead? b with
    | none => simp [hlead] at h
    | some lead =>
      simp only [hlead] at h
      split at h
      · next hlength => exact exists_form hlead hlength
      · cases h
  rw [hform.headPiece_append] at h
  obtain ⟨rfl, rfl⟩ : Char.ofNat n = c ∧ tail.length = count := by simpa using h
  exact ⟨tail, more, rfl, rfl, hform.encodeChar_ofNat⟩

/-! ## Whole texts -/

theorem pieces_encodeChar_append (c : Char) (rest : Bytes) :
    pieces (encodeChar c ++ rest) = .char c :: pieces rest := by
  have hform := form_encodeChar c
  obtain ⟨b, tail, hbytes⟩ := hform.exists_cons
  rw [hbytes] at hform
  rw [hbytes, List.cons_append, pieces, hform.headPiece_append]
  simp

theorem decode?_encodeChar_append (c : Char) (rest : Bytes) :
    decode? (encodeChar c ++ rest) = (decode? rest).map (c :: ·) := by
  unfold decode?
  rw [pieces_encodeChar_append, List.mapM_cons]
  cases (pieces rest).mapM Piece.char? <;> rfl

@[simp] theorem encode_nil : encode [] = [] := rfl

@[simp] theorem encode_cons (c : Char) (text : List Char) :
    encode (c :: text) = encodeChar c ++ encode text := rfl

@[simp] theorem encode_append (front back : List Char) :
    encode (front ++ back) = encode front ++ encode back :=
  List.flatMap_append

@[simp] theorem decode?_nil : decode? [] = some [] := by
  rw [decode?, pieces]
  rfl

@[simp] theorem decode?_encode (text : List Char) : decode? (encode text) = some text := by
  induction text with
  | nil => exact decode?_nil
  | cons c text ih => rw [encode_cons, decode?_encodeChar_append, ih, Option.map_some]

theorem encode_of_decode? (h : decode? bytes = some text) : encode text = bytes := by
  fun_induction pieces bytes generalizing text with
  | case1 =>
    obtain rfl : [] = text := by simpa using h
    rfl
  | case2 b rest head =>
    rename_i ih
    unfold head at ih
    rcases hhead : headPiece b rest with ⟨c | bytes, count⟩
    · obtain ⟨tail, more, rfl, rfl, hchar⟩ := form_of_headPiece hhead
      have hbytes : b :: (tail ++ more) = encodeChar c ++ more := by rw [hchar, List.cons_append]
      rw [hhead, List.drop_left] at ih
      rw [hbytes, decode?_encodeChar_append] at h
      obtain ⟨text, hmore, rfl⟩ := Option.map_eq_some_iff.mp h
      rw [encode_cons, ih hmore, hbytes]
    · simp [decode?, pieces, hhead, Piece.char?] at h

theorem decode?_eq_some_iff : decode? bytes = some text ↔ bytes = encode text :=
  ⟨fun h => (encode_of_decode? h).symm, fun h => h ▸ decode?_encode text⟩

theorem encode_injective : Function.Injective encode := fun first second h =>
  Option.some.inj <| (decode?_encode first).symm.trans
    ((congrArg decode? h).trans (decode?_encode second))

/-- Text is shown as it is. -/
theorem display_encode (text : List Char) : display (encode text) = text := by
  induction text with
  | nil => rw [encode_nil, display, pieces, List.map_nil]
  | cons c text ih =>
    rw [encode_cons, display, pieces_encodeChar_append, List.map_cons]
    exact congrArg (c :: ·) ih

/-! ## Characters of one byte -/

section Marks

variable {mark : Char} (hmark : mark.toNat < 0x80)

include hmark

theorem encodeChar_mark : encodeChar mark = [.ofNat mark.toNat] := by simp [encodeChar, hmark]

theorem mem_encodeChar_iff : UInt8.ofNat mark.toNat ∈ encodeChar c ↔ c = mark := by
  have hbyte : (UInt8.ofNat mark.toNat).toNat = mark.toNat := by
    rw [UInt8.toNat_ofNat']
    omega
  constructor
  · intro hmem
    have hsingle := (form_encodeChar c).eq_singleton_of_mem hmem (by rwa [hbyte])
    have hsame : encode [c] = encode [mark] := by
      rw [encode_cons, encode_cons, hsingle, encodeChar_mark hmark]
    exact (List.cons.inj (encode_injective hsame)).1
  · rintro rfl
    rw [encodeChar_mark hmark]
    exact List.mem_singleton_self _

theorem splitAtEach_encode (text : List Char) :
    splitAtEach (UInt8.ofNat mark.toNat) (encode text) = (splitAtEach mark text).map encode := by
  induction text with
  | nil => rfl
  | cons c text ih =>
    rw [encode_cons, splitAtEach]
    by_cases hc : c = mark
    · rw [hc, encodeChar_mark hmark, List.singleton_append, splitAtEach, if_pos rfl, if_pos rfl, ih]
      rfl
    · rw [if_neg hc, splitAtEach_append_of_notMem (fun hmem =>
        hc ((mem_encodeChar_iff hmark).mp hmem)), ih]
      cases splitAtEach mark text <;> simp

theorem dropOneAtEnd_encode (text : List Char) :
    dropOneAtEnd (UInt8.ofNat mark.toNat) (encode text) = encode (dropOneAtEnd mark text) := by
  rcases List.eq_nil_or_concat' text with rfl | ⟨init, c, rfl⟩
  · rfl
  · by_cases hc : c = mark
    · simp [dropOneAtEnd, hc, encodeChar_mark hmark]
    · have hlast : (encodeChar c).getLast? ≠ some (UInt8.ofNat mark.toNat) := fun h =>
        hc ((mem_encodeChar_iff hmark).mp (List.mem_of_getLast? h))
      obtain ⟨b, tail, hbytes⟩ := (form_encodeChar c).exists_cons
      have hwhole : (encode (init ++ [c])).getLast? = (encodeChar c).getLast? := by
        rw [encode_append, encode_cons, encode_nil, List.append_nil,
          List.getLast?_append_of_ne_nil _ (by simp [hbytes])]
      rw [dropOneAtEnd, dropOneAtEnd, hwhole, if_neg hlast, if_neg (by simpa using hc)]

end Marks

end Utf8

end TreeWatch
