import Mathlib.Data.List.Basic
import Mathlib.Tactic.ByContra
import TreeWatch.Toml.Written

/-!
# Strings that were written

A written string is read as the text it was written for, in whichever form it stands and whatever
follows it. The readers of the two forms with escapes take characters and escapes alike; the readers
of the two forms over several lines end alike, with up to two quotes of the text right in front of
the closing ones.
-/

namespace TreeWatch

namespace Toml

/-- Readers of the rest of a string. -/
abbrev Rest := List Char → Option (List Char × List Char)

variable {c quote : Char} {run count : Nat} {text more rest piece tail : List Char} {read : Rest}

/-- A reader takes a piece of text for a character, whatever it reads after it. -/
def Takes (read : Rest) (piece : List Char) (c : Char) : Prop :=
  ∀ text more rest, read text = some (more, rest) → read (piece ++ text) = some (c :: more, rest)

/-! ## Escapes -/

theorem codePoint?_fourDigits : ∀ n < 128,
    (fourDigits n).length = 4 ∧ codePoint? (fourDigits n) = some (Char.ofNat n) := by
  decide

theorem lt_of_isControl (h : isControl c = true) : c.toNat < 128 := by
  by_contra hle
  have hblank : ' ' ≤ c := UInt32.le_iff_toNat_le.mpr (Nat.le_trans (by decide) (Nat.not_lt.mp hle))
  have hdelete : c ≠ '\x7f' := by rintro rfl; exact hle (by decide)
  simp [isControl, isShown, hblank, hdelete] at h

theorem isShown_or_eq_of_not_isControl (h : isControl c = false) : isShown c = true ∨ c = '\n' := by
  cases hshown : isShown c with
  | true => exact .inl rfl
  | false => exact .inr (by simpa [isControl, hshown] using h)

theorem escape_fourDigits (h : isControl c = true) (rest : List Char) :
    escape ('u' :: fourDigits c.toNat ++ rest) = some (c, rest) := by
  obtain ⟨hlength, hdigits⟩ := codePoint?_fourDigits c.toNat (lt_of_isControl h)
  rw [List.cons_append, escape, codePointEscape, if_neg (by simp [hlength]),
    List.take_left' hlength, List.drop_left' hlength, hdigits, Char.ofNat_toNat]
  rfl

theorem lineEnd?_skipSpace_of_escape (h : escape text = some (c, rest)) :
    lineEnd? (skipSpace text) = none := by
  cases text with
  | nil => rfl
  | cons first text =>
    have hfirst : first ≠ ' ' ∧ first ≠ '\t' ∧ first ≠ '\n' ∧ first ≠ '\r' := by
      refine ⟨?_, ?_, ?_, ?_⟩ <;> rintro rfl <;> simp [escape, shortEscape?] at h
    have hskip : skipSpace (first :: text) = first :: text :=
      List.dropWhile_cons_of_neg (by simp [isSpace, hfirst])
    rw [hskip]
    unfold lineEnd?
    split
    · next heq => exact absurd (List.cons.inj heq).1 hfirst.2.2.1
    · next heq => exact absurd (List.cons.inj heq).1 hfirst.2.2.2
    · rfl

/-! ## Forms with escapes -/

/-- Readers that take a character that can be shown as itself, and any character as an escape. -/
structure Unescapes (read : Rest) : Prop where
  shown : ∀ c, isShown c = true → c ≠ '\x22' → c ≠ '\\' → Takes read [c] c
  escaped : ∀ c piece, (∀ rest, escape (piece ++ rest) = some (c, rest)) →
    Takes read ('\\' :: piece) c

theorem unescapes_basicRest : Unescapes basicRest where
  shown c hshown hquote hbackslash text more rest h := by
    rw [List.singleton_append, basicRest, if_pos hshown, h]
    · rfl
    · exact hquote
    · exact hbackslash
  escaped c piece hpiece text more rest h := by
    rw [List.cons_append, basicRest]
    split
    · next hnone => exact absurd (hpiece text) (by simp [hnone])
    · next found remaining hsome =>
      obtain ⟨rfl, rfl⟩ := Prod.mk.inj (Option.some.inj ((hpiece text).symm.trans hsome))
      rw [h]
      rfl

theorem unescapes_basicLines : Unescapes (basicLines false) where
  shown c hshown hquote hbackslash text more rest h := by
    have hline : c ≠ '\n' ∧ c ≠ '\r' := by constructor <;> rintro rfl <;> simp [isShown] at hshown
    rw [List.singleton_append, basicLines, Bool.false_and, if_neg (by decide), if_pos hshown, h]
    · rfl
    · exact hline.1
    · exact fun _ heq => absurd heq hline.2
    · exact hbackslash
    · exact hquote
  escaped c piece hpiece text more rest h := by
    rw [List.cons_append, basicLines, lineEnd?_skipSpace_of_escape (hpiece text)]
    simp only
    split
    · next hnone => exact absurd (hpiece text) (by simp [hnone])
    · next found remaining hsome =>
      obtain ⟨rfl, rfl⟩ := Prod.mk.inj (Option.some.inj ((hpiece text).symm.trans hsome))
      rw [h]
      rfl

/-- A written character is read as itself. The double quote is written in its own way. -/
theorem Unescapes.takes_writtenChar (hread : Unescapes read) {form : StringForm}
    (hline : form.overLines = true → Takes read ['\n'] '\n') (hquote : c ≠ '\x22') :
    Takes read (writtenChar form c) c := by
  unfold writtenChar
  split
  · exact hread.escaped _ ['b'] fun _ => rfl
  · exact hread.escaped _ ['t'] fun _ => rfl
  · split
    · next hover => exact hline hover
    · exact hread.escaped _ ['n'] fun _ => rfl
  · exact hread.escaped _ ['f'] fun _ => rfl
  · exact hread.escaped _ ['r'] fun _ => rfl
  · exact hread.escaped _ ['\\'] fun _ => rfl
  · next hfeed _ _ hbackslash =>
    split
    · next hcontrol => exact hread.escaped _ _ (escape_fourDigits hcontrol)
    · next hcontrol =>
      have hshown := (isShown_or_eq_of_not_isControl (Bool.not_eq_true _ ▸ hcontrol)).resolve_right
        hfeed
      exact hread.shown _ hshown hquote hbackslash

theorem exists_writtenChar_eq_cons (form : StringForm) (c : Char) (hquote : c ≠ '\x22') :
    ∃ first more, writtenChar form c = first :: more ∧ (c = '\n' ∨ isShown first = true) ∧
      first ≠ '\x22' := by
  unfold writtenChar
  split
  · exact ⟨_, _, rfl, .inr rfl, by decide⟩
  · exact ⟨_, _, rfl, .inr rfl, by decide⟩
  · split
    · exact ⟨_, _, rfl, .inl rfl, by decide⟩
    · exact ⟨_, _, rfl, .inl rfl, by decide⟩
  · exact ⟨_, _, rfl, .inr rfl, by decide⟩
  · exact ⟨_, _, rfl, .inr rfl, by decide⟩
  · exact ⟨_, _, rfl, .inr rfl, by decide⟩
  · split
    · exact ⟨_, _, rfl, .inr rfl, by decide⟩
    · next hcontrol =>
      exact ⟨c, [], rfl, (isShown_or_eq_of_not_isControl (Bool.not_eq_true _ ▸ hcontrol)).symm,
        hquote⟩

section Quotes

variable {form : StringForm}

theorem writtenChars_of_free (h : run < form.freeQuotes) (text : List Char) :
    writtenChars form run ('\x22' :: text) = '\x22' :: writtenChars form (run + 1) text := by
  rw [writtenChars, if_pos rfl, if_pos h]

theorem writtenChars_of_full (h : ¬ run < form.freeQuotes) (text : List Char) :
    writtenChars form run ('\x22' :: text) = '\\' :: '\x22' :: writtenChars form 0 text := by
  rw [writtenChars, if_pos rfl, if_neg h]

theorem writtenChars_of_ne (h : c ≠ '\x22') (text : List Char) :
    writtenChars form run (c :: text) = writtenChar form c ++ writtenChars form 0 text := by
  rw [writtenChars, if_neg h]

end Quotes

theorem basicRest_writtenChars (run : Nat) (text rest : List Char) :
    basicRest (writtenChars ⟨true, false⟩ run text ++ '\x22' :: rest) = some (text, rest) := by
  induction text generalizing run with
  | nil => rw [writtenChars, List.nil_append, basicRest]
  | cons c text ih =>
    by_cases hquote : c = '\x22'
    · subst hquote
      rw [writtenChars_of_full (Nat.not_lt_zero run)]
      exact unescapes_basicRest.escaped '\x22' ['\x22'] (fun _ => rfl) _ _ _ (ih 0)
    · rw [writtenChars_of_ne hquote, List.append_assoc]
      exact unescapes_basicRest.takes_writtenChar (by simp) hquote _ _ _ (ih 0)

theorem literalRest_append (hshown : ∀ c ∈ text, isShown c = true) (hquote : '\x27' ∉ text)
    (rest : List Char) : literalRest (text ++ '\x27' :: rest) = some (text, rest) := by
  induction text with
  | nil => rfl
  | cons c text ih =>
    simp only [List.mem_cons, forall_eq_or_imp, not_or] at hshown hquote
    rw [List.cons_append, literalRest, if_pos hshown.1, ih hshown.2 hquote.2]
    · rfl
    · exact Ne.symm hquote.1

/-! ## Strings over several lines -/

theorem quoteRun_cons_self (quote : Char) (text : List Char) :
    quoteRun quote (quote :: text) = quoteRun quote text + 1 := by
  simp [quoteRun]

theorem quoteRun_cons_of_ne (h : c ≠ quote) (text : List Char) :
    quoteRun quote (c :: text) = 0 := by
  simp [quoteRun, h]

theorem quoteRun_replicate_append (h : tail.head? ≠ some quote) (count : Nat) :
    quoteRun quote (List.replicate count quote ++ tail) = count := by
  induction count with
  | zero =>
    cases tail with
    | nil => rfl
    | cons c tail => exact quoteRun_cons_of_ne (by simpa using h) tail
  | succ count ih => rw [List.replicate_succ, List.cons_append, quoteRun_cons_self, ih]

/-- Readers of a string over several lines in `quote`: fewer than three quotes are taken as
themselves, and with more the string ends. -/
structure EndsWith (quote : Char) (read : Rest) : Prop where
  held : ∀ text more rest, quoteRun quote (quote :: text) < 3 → read text = some (more, rest) →
    read (quote :: text) = some (quote :: more, rest)
  closed : ∀ text, 3 ≤ quoteRun quote (quote :: text) → read (quote :: text) =
    some (List.replicate (min (quoteRun quote (quote :: text) - 3) 2) quote,
      (quote :: text).drop (min (quoteRun quote (quote :: text) - 3) 2 + 3))

theorem endsWith_basicLines : EndsWith '\x22' (basicLines false) where
  held text more rest hrun h := by
    rw [basicLines, quotesHeld, if_pos hrun]
    simp only [Bool.false_eq_true, if_false, h]
    rfl
  closed text hrun := by
    rw [basicLines, quotesHeld, if_neg (Nat.not_lt.mpr hrun)]
    rfl

theorem endsWith_literalLines : EndsWith '\x27' literalLines where
  held text more rest hrun h := by
    rw [literalLines, quotesHeld, if_pos hrun]
    simp only [Bool.false_eq_true, if_false, h]
    rfl
  closed text hrun := by
    rw [literalLines, quotesHeld, if_neg (Nat.not_lt.mpr hrun)]
    rfl

/-- Up to two quotes in front of the closing ones belong to the string. -/
theorem EndsWith.read_replicate (hread : EndsWith quote read) (hcount : count ≤ 2)
    (htail : tail.head? ≠ some quote) :
    read (List.replicate count quote ++ List.replicate 3 quote ++ tail) =
      some (List.replicate count quote, tail) := by
  have hrun := quoteRun_replicate_append htail (count + 3)
  have hcons : List.replicate count quote ++ List.replicate 3 quote ++ tail =
      quote :: (List.replicate (count + 2) quote ++ tail) := by
    rw [← List.replicate_add, List.replicate_succ, List.cons_append]
  rw [List.replicate_succ, List.cons_append] at hrun
  rw [hcons, hread.closed _ (by omega), hrun, Nat.add_sub_cancel, Nat.min_eq_left hcount,
    ← List.cons_append, ← List.replicate_succ, List.drop_left' (by simp)]

theorem takes_lineEnd : Takes (basicLines false) ['\n'] '\n' := fun text more rest h => by
  rw [List.singleton_append, basicLines, if_neg (by decide), h]
  rfl

/-- Either all of a text stands as quotes right up to what follows, or few quotes stand at its
front. -/
theorem lead_writtenChars (hrun : run ≤ 2) (text tail : List Char) :
    (∃ count, count + run ≤ 2 ∧ text = List.replicate count '\x22' ∧
      writtenChars ⟨true, true⟩ run text = List.replicate count '\x22') ∨
    quoteRun '\x22' (writtenChars ⟨true, true⟩ run text ++ tail) + run ≤ 2 := by
  induction text generalizing run with
  | nil => exact .inl ⟨0, by omega, rfl, rfl⟩
  | cons c text ih =>
    by_cases hquote : c = '\x22'
    · subst hquote
      by_cases hfree : run < 2
      · rw [writtenChars_of_free hfree]
        obtain ⟨count, hcount, htext, hwritten⟩ | hheld := @ih (run + 1) hfree
        · exact .inl ⟨count + 1, by omega, by rw [htext]; rfl, by rw [hwritten]; rfl⟩
        · exact .inr (by rw [List.cons_append, quoteRun_cons_self]; omega)
      · rw [writtenChars_of_full hfree]
        exact .inr (by rw [List.cons_append, quoteRun_cons_of_ne (by decide)]; omega)
    · obtain ⟨first, more, hwritten, -, hne⟩ := exists_writtenChar_eq_cons ⟨true, true⟩ c hquote
      rw [writtenChars_of_ne hquote, hwritten]
      exact .inr (by rw [List.cons_append, List.cons_append, quoteRun_cons_of_ne hne]; omega)

theorem basicLines_writtenChars (hrun : run ≤ 2) (htail : tail.head? ≠ some '\x22')
    (text : List Char) :
    basicLines false (writtenChars ⟨true, true⟩ run text ++ List.replicate 3 '\x22' ++ tail) =
      some (text, tail) := by
  induction text generalizing run with
  | nil => exact endsWith_basicLines.read_replicate (Nat.zero_le 2) htail
  | cons c text ih =>
    by_cases hquote : c = '\x22'
    · subst hquote
      by_cases hfree : run < 2
      · -- Quotes that run into the closing ones are read together with them, not one by one.
        obtain ⟨count, hcount, htext, hwritten⟩ | hheld :=
          lead_writtenChars hrun ('\x22' :: text) (List.replicate 3 '\x22' ++ tail)
        · rw [hwritten, htext]
          exact endsWith_basicLines.read_replicate (by omega) htail
        · rw [writtenChars_of_free hfree] at hheld ⊢
          rw [List.append_assoc, List.cons_append] at *
          exact endsWith_basicLines.held _ _ _ (by omega) (List.append_assoc _ _ _ ▸ ih hfree)
      · rw [writtenChars_of_full hfree]
        exact unescapes_basicLines.escaped '\x22' ['\x22'] (fun _ => rfl) _ _ _ (ih (Nat.zero_le 2))
    · rw [writtenChars_of_ne hquote, List.append_assoc, List.append_assoc,
        ← List.append_assoc _ _ tail]
      exact unescapes_basicLines.takes_writtenChar (fun _ => takes_lineEnd) hquote _ _ _
        (ih (Nat.zero_le 2))

theorem le_longestRun (quote : Char) (run : Nat) (text : List Char) :
    run ≤ longestRun quote run text := by
  induction text generalizing run with
  | nil => exact Nat.le_refl run
  | cons c text ih =>
    rw [longestRun]
    split
    · exact Nat.le_of_succ_le (ih (run + 1))
    · exact Nat.le_max_left _ _

theorem notMem_of_longestRun_eq_zero (h : longestRun quote 0 text = 0) : quote ∉ text := by
  induction text with
  | nil => exact List.not_mem_nil
  | cons c text ih =>
    rw [longestRun] at h
    split at h
    · exact absurd (le_longestRun quote (0 + 1) text) (by omega)
    · next hne => exact List.not_mem_cons_of_ne_of_not_mem (Ne.symm hne) (ih (by omega))

theorem lead_of_longestRun (hrun : longestRun quote run text ≤ 2) (tail : List Char) :
    (∃ count, count + run ≤ 2 ∧ text = List.replicate count quote) ∨
    quoteRun quote (text ++ tail) + run ≤ 2 := by
  induction text generalizing run with
  | nil => exact .inl ⟨0, by simpa [longestRun] using hrun, rfl⟩
  | cons c text ih =>
    rw [longestRun] at hrun
    split at hrun
    · next hquote =>
      subst hquote
      obtain ⟨count, hcount, htext⟩ | hheld := ih hrun
      · exact .inl ⟨count + 1, by omega, by rw [htext]; rfl⟩
      · exact .inr (by rw [List.cons_append, quoteRun_cons_self]; omega)
    · next hne => exact .inr (by rw [List.cons_append, quoteRun_cons_of_ne hne]; omega)

theorem literalLines_append (hshown : ∀ c ∈ text, isControl c = false)
    (hrun : longestRun '\x27' run text ≤ 2) (htail : tail.head? ≠ some '\x27') :
    literalLines (text ++ List.replicate 3 '\x27' ++ tail) = some (text, tail) := by
  induction text generalizing run with
  | nil => exact endsWith_literalLines.read_replicate (Nat.zero_le 2) htail
  | cons c text ih =>
    rw [List.forall_mem_cons] at hshown
    have hlead := lead_of_longestRun hrun (List.replicate 3 '\x27' ++ tail)
    rw [longestRun] at hrun
    split at hrun
    · next hquote =>
      subst hquote
      obtain ⟨count, hcount, htext⟩ | hheld := hlead
      · rw [htext]
        exact endsWith_literalLines.read_replicate (by omega) htail
      · rw [List.append_assoc, List.cons_append] at *
        exact endsWith_literalLines.held _ _ _ (by omega) (List.append_assoc _ _ _ ▸
          ih hshown.2 hrun)
    · next hne =>
      have hmore := ih hshown.2 (Nat.le_trans (Nat.le_max_right _ _) hrun)
      rw [List.cons_append, List.cons_append]
      obtain hself | rfl := isShown_or_eq_of_not_isControl hshown.1
      · have hline : c ≠ '\n' ∧ c ≠ '\r' := by
          constructor <;> rintro rfl <;> simp [isShown] at hself
        rw [literalLines, if_pos hself, hmore]
        · rfl
        · exact hline.1
        · exact fun _ heq => absurd heq hline.2
        · exact hne
      · rw [literalLines, hmore]
        rfl

/-! ## All forms -/

theorem dropFirstLineEnd_of_isShown (h : isShown c = true) (text : List Char) :
    dropFirstLineEnd (c :: text) = c :: text := by
  unfold dropFirstLineEnd lineEnd?
  split
  · next heq =>
    rw [(List.cons.inj heq).1] at h
    exact absurd h (by decide)
  · next heq =>
    rw [(List.cons.inj heq).1] at h
    exact absurd h (by decide)
  · rfl

theorem dropFirstLineEnd_opening
    (h : '\n' ∉ text → ∃ first more, rest = first :: more ∧ isShown first = true) :
    dropFirstLineEnd ((if text.contains '\n' then ['\n'] else []) ++ rest) = rest := by
  split
  · rfl
  · next hline =>
    obtain ⟨first, more, rfl, hfirst⟩ := h (by simpa using hline)
    exact dropFirstLineEnd_of_isShown hfirst more

theorem string_of_basicRest (htail : tail.head? ≠ some '\x22')
    (h : basicRest more = some (text, tail)) :
    string ('\x22' :: more) = some (text, tail) := by
  unfold string
  split
  · next heq =>
    rw [(List.cons.inj heq).2, basicRest] at h
    rw [← (Prod.mk.inj (Option.some.inj h)).2] at htail
    exact absurd rfl htail
  · next heq => exact absurd (List.cons.inj heq).1 (by decide)
  · exact h

theorem string_of_literalRest (htail : tail.head? ≠ some '\x27')
    (h : literalRest more = some (text, tail)) :
    string ('\x27' :: more) = some (text, tail) := by
  unfold string
  split
  · next heq => exact absurd (List.cons.inj heq).1 (by decide)
  · next heq =>
    rw [(List.cons.inj heq).2, literalRest] at h
    rw [← (Prod.mk.inj (Option.some.inj h)).2] at htail
    exact absurd rfl htail
  · exact h

theorem string_writtenIn_basic (htail : tail.head? ≠ some '\x22') (text : List Char) :
    string (writtenIn ⟨true, false⟩ text ++ tail) = some (text, tail) := by
  have hwritten : writtenIn ⟨true, false⟩ text ++ tail =
      '\x22' :: (writtenChars ⟨true, false⟩ 0 text ++ '\x22' :: tail) := by
    simp [writtenIn, StringForm.quotes]
  rw [hwritten]
  exact string_of_basicRest htail (basicRest_writtenChars 0 text tail)

theorem string_writtenIn_literal (hshown : ∀ c ∈ text, isShown c = true) (hquote : '\x27' ∉ text)
    (htail : tail.head? ≠ some '\x27') :
    string (writtenIn ⟨false, false⟩ text ++ tail) = some (text, tail) := by
  have hwritten : writtenIn ⟨false, false⟩ text ++ tail = '\x27' :: (text ++ '\x27' :: tail) := by
    simp [writtenIn, StringForm.quotes]
  rw [hwritten]
  exact string_of_literalRest htail (literalRest_append hshown hquote tail)

theorem string_writtenIn_basicLines (htail : tail.head? ≠ some '\x22') (text : List Char) :
    string (writtenIn ⟨true, true⟩ text ++ tail) = some (text, tail) := by
  have hwritten : string (writtenIn ⟨true, true⟩ text ++ tail) = basicLines false (dropFirstLineEnd
      ((if text.contains '\n' then ['\n'] else []) ++
        (writtenChars ⟨true, true⟩ 0 text ++ List.replicate 3 '\x22' ++ tail))) := by
    simp [writtenIn, StringForm.quotes, string, List.replicate_succ]
  rw [hwritten, dropFirstLineEnd_opening, basicLines_writtenChars (Nat.zero_le 2) htail]
  intro hline
  cases text with
  | nil => exact ⟨_, _, rfl, rfl⟩
  | cons c text =>
    by_cases hquote : c = '\x22'
    · subst hquote
      exact ⟨_, _, rfl, rfl⟩
    · obtain ⟨first, more, hchar, hfirst, -⟩ := exists_writtenChar_eq_cons ⟨true, true⟩ c hquote
      rw [writtenChars_of_ne hquote, hchar]
      exact ⟨_, _, rfl, hfirst.resolve_left fun heq => hline (heq ▸ List.mem_cons_self)⟩

theorem string_writtenIn_literalLines (hshown : ∀ c ∈ text, isControl c = false)
    (hrun : longestRun '\x27' 0 text ≤ 2) (htail : tail.head? ≠ some '\x27') :
    string (writtenIn ⟨false, true⟩ text ++ tail) = some (text, tail) := by
  have hwritten : string (writtenIn ⟨false, true⟩ text ++ tail) = literalLines (dropFirstLineEnd
      ((if text.contains '\n' then ['\n'] else []) ++ (text ++ List.replicate 3 '\x27' ++
        tail))) := by
    simp [writtenIn, StringForm.quotes, string, List.replicate_succ]
  rw [hwritten, dropFirstLineEnd_opening, literalLines_append hshown hrun htail]
  intro hline
  cases text with
  | nil => exact ⟨_, _, rfl, rfl⟩
  | cons c text =>
    have hself := isShown_or_eq_of_not_isControl (hshown c List.mem_cons_self)
    exact ⟨c, _, rfl, hself.resolve_right fun heq => hline (heq ▸ List.mem_cons_self)⟩

/-- A written string is read as its text, up to where it ends. -/
theorem string_writtenString (hquote : tail.head? ≠ some '\x22')
    (hapostrophe : tail.head? ≠ some '\x27') (text : List Char) :
    string (writtenString text ++ tail) = some (text, tail) := by
  unfold writtenString StringForm.ofText
  -- The cases are those in which a form is chosen: each brings what its reader needs.
  by_cases hcontrols : text.any isControl
  · simp only [hcontrols, Bool.not_true, Bool.false_and, Bool.false_eq_true, if_false]
    cases text.contains '\n'
    · exact string_writtenIn_basic hquote text
    · exact string_writtenIn_basicLines hquote text
  · have hshown : ∀ c ∈ text, isControl c = false := by simpa using hcontrols
    simp only [Bool.eq_false_iff.mpr hcontrols, Bool.not_false, Bool.true_and, Bool.and_eq_true]
    split
    · exact string_writtenIn_basic hquote text
    · split
      · next hform =>
        have hline : '\n' ∉ text := by simpa using hform.1
        have hself : ∀ c ∈ text, isShown c = true := fun c hc =>
          (isShown_or_eq_of_not_isControl (hshown c hc)).resolve_right fun heq => hline (heq ▸ hc)
        exact string_writtenIn_literal hself (notMem_of_longestRun_eq_zero (by simpa using hform.2))
          hapostrophe
      · split
        · exact string_writtenIn_basicLines hquote text
        · split
          · next hform =>
              exact string_writtenIn_literalLines hshown (by simpa using hform) hapostrophe
          · cases text.contains '\n'
            · exact string_writtenIn_basic hquote text
            · exact string_writtenIn_basicLines hquote text

end Toml

end TreeWatch
