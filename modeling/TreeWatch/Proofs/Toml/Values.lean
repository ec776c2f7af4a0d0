import TreeWatch.Proofs.Text.Numerals
import TreeWatch.Proofs.Toml.Strings
import TreeWatch.Toml.Value

/-!
# Values that were written

Written strings, numbers and truth values are read as what they were written for, up to the end of
their line. Digits alone are an integer: nothing in them makes a float, a date or a time.
-/

namespace TreeWatch

namespace Toml

variable {c : Char} {ds word rest more : List Char} {node : Node} {base count n : Nat}

/-! ## Digits -/

theorem valueOf_append (base : Nat) (ds : List Char) (c : Char) :
    valueOf base (ds ++ [c]) = valueOf base ds * base + (Numeral.digit? base c).getD 0 := by
  simp [valueOf]

theorem valueOf_toDigits (hbase : 1 < base) (hle : base ≤ 16) (n : Nat) :
    valueOf base (Nat.toDigits base n) = n := by
  induction n using Nat.strongRecOn with
  | ind n ih =>
    rw [Nat.toDigits_eq_if hbase]
    split
    · next hlt => simp [valueOf, Numeral.digit?_digitChar hlt hle]
    · next hge =>
      have hdigit := Numeral.digit?_digitChar (Nat.mod_lt n (by omega)) hle
      rw [valueOf_append, ih (n / base) (Nat.div_lt_self (by omega) hbase), hdigit,
        Option.getD_some]
      exact Nat.div_add_mod' n base

theorem isDigit_of_mem_toDigits (hbase : 1 < base) (hle : base ≤ 16) (h : c ∈ Nat.toDigits base n) :
    isDigit base c = true := by
  obtain ⟨digit, hdigit⟩ := (Numeral.writes_toDigits hbase n).exists_isDigit h
  rw [isDigit, (Numeral.digit?_eq_some_iff hle).mpr hdigit]
  rfl

theorem eq_nil_of_toDigits_eq_zero_cons (h : Nat.toDigits 10 n = '0' :: rest) : rest = [] := by
  induction n using Nat.strongRecOn generalizing rest with
  | ind n ih =>
    rw [Nat.toDigits_eq_if (by decide)] at h
    split at h
    · exact (List.cons.inj h).2.symm
    · next hge =>
      cases hfront : Nat.toDigits 10 (n / 10) with
      | nil => exact absurd hfront Nat.toDigits_ne_nil
      | cons first more =>
        rw [hfront, List.cons_append] at h
        -- The quotient would be a zero alone, but it is not zero.
        have hzero := ih (n / 10) (by omega) (hfront.trans (by rw [(List.cons.inj h).1]))
        have hvalue : valueOf 10 (Nat.toDigits 10 (n / 10)) = n / 10 :=
          valueOf_toDigits (by decide) (by decide) (n / 10)
        rw [hfront, hzero, (List.cons.inj h).1] at hvalue
        have : valueOf 10 ['0'] = 0 := rfl
        omega

def IsDecimal (ds : List Char) : Prop := ∀ c ∈ ds, isDigit 10 c = true

theorem isDecimal_toDigits (n : Nat) : IsDecimal (Nat.toDigits 10 n) := fun _ =>
  isDigit_of_mem_toDigits (by decide) (by decide)

theorem moreDigits_append (h : IsDecimal ds) (rest : List Char) :
    moreDigits 10 (ds ++ '\n' :: rest) = (ds, '\n' :: rest) := by
  induction ds with
  | nil => rfl
  | cons c ds ih =>
    have hdigit := h c List.mem_cons_self
    rw [List.cons_append, moreDigits, if_pos hdigit, ih fun c hc => h c (List.mem_cons_of_mem _ hc)]
    rintro _ _ rfl _
    exact absurd hdigit (by decide)

theorem wholeDigits_toDigits (n : Nat) (rest : List Char) :
    wholeDigits (Nat.toDigits 10 n ++ '\n' :: rest) = some (Nat.toDigits 10 n, '\n' :: rest) := by
  have hdecimal := isDecimal_toDigits n
  cases hdigits : Nat.toDigits 10 n with
  | nil => exact absurd hdigits Nat.toDigits_ne_nil
  | cons c ds =>
    rw [hdigits, IsDecimal, List.forall_mem_cons] at hdecimal
    by_cases hzero : c = '0'
    · subst hzero
      rw [eq_nil_of_toDigits_eq_zero_cons hdigits]
      rfl
    · rw [List.cons_append, wholeDigits, digits, if_pos hdecimal.1, moreDigits_append hdecimal.2]
      exact fun _ heq => hzero (List.cons.inj heq).1

/-! ## What digits alone are not -/

theorem expect?_of_head (h : c ∉ more.head?) (word : List Char) :
    expect? (c :: word) more = none := by
  cases more with
  | nil => rfl
  | cons first more =>
    have hne : c ≠ first := by rintro rfl; simp at h
    simp [expect?, hne]

theorem head?_append (h : IsDecimal ds) (hdigit : isDigit 10 c = false) (hline : c ≠ '\n')
    (rest : List Char) :
    c ∉ (ds ++ '\n' :: rest).head? := by
  cases ds with
  | nil => simpa using Ne.symm hline
  | cons first ds =>
    simp only [List.cons_append, List.head?_cons, Option.mem_def, Option.some.injEq]
    rintro rfl
    exact absurd (h first List.mem_cons_self) (by simp [hdigit])

theorem exists_of_fixedDigits (h : IsDecimal ds)
    (hfixed : fixedDigits count (ds ++ '\n' :: rest) = some (n, more)) :
    ∃ back, IsDecimal back ∧ more = back ++ '\n' :: rest := by
  simp only [fixedDigits] at hfixed
  split at hfixed
  · next hall =>
    have hle : count ≤ ds.length := by
      by_contra hlt
      have hline : '\n' ∈ (ds ++ '\n' :: rest).take count :=
        List.mem_take_iff_getElem.mpr ⟨ds.length, by simp; omega, by simp⟩
      exact absurd (List.all_eq_true.mp hall.2 _ hline) (by decide)
    obtain ⟨-, rfl⟩ := Prod.mk.inj (Option.some.inj hfixed)
    exact ⟨ds.drop count, fun c hc => h c (List.mem_of_mem_drop hc),
      List.drop_append_of_le_length hle⟩
  · exact absurd hfixed (by simp)

theorem dateTime_append (h : IsDecimal ds) (rest : List Char) :
    dateTime (ds ++ '\n' :: rest) = none := by
  -- After its first digits a date has a dash and a time a colon.
  have hexpect : ∀ (mark : Char) {count n : Nat} {more : List Char}, isDigit 10 mark = false →
    mark ≠ '\n' →
      fixedDigits count (ds ++ '\n' :: rest) = some (n, more) → expect? [mark] more = none := by
    intro mark count n more hdigit hline hfixed
    obtain ⟨back, hback, rfl⟩ := exists_of_fixedDigits h hfixed
    exact expect?_of_head (head?_append hback hdigit hline rest) []
  have hdate : date? (ds ++ '\n' :: rest) = none := by
    unfold date?
    cases hyear : fixedDigits 4 (ds ++ '\n' :: rest) with
    | none => rfl
    | some found => simp [hexpect '-' rfl (by decide) hyear]
  have htime : time? (ds ++ '\n' :: rest) = none := by
    unfold time? hourAndMinute?
    cases hhour : fixedDigits 2 (ds ++ '\n' :: rest) with
    | none => rfl
    | some found => simp [hexpect ':' rfl (by decide) hhour]
  rw [dateTime, hdate, htime]
  rfl

theorem sign_append (h : IsDecimal ds) (rest : List Char) :
    sign (ds ++ '\n' :: rest) = (false, ds ++ '\n' :: rest) := by
  unfold sign
  split
  · next heq => exact absurd (heq ▸ rfl) (head?_append h (c := '-') rfl (by decide) rest)
  · next heq => exact absurd (heq ▸ rfl) (head?_append h (c := '+') rfl (by decide) rest)
  · rfl

/-! ## Numbers and truth values -/

theorem boundedInteger_natCast (hn : (n : Int) < integerBounds.2) :
    boundedInteger n = some (.integer n) := by
  have hlow : integerBounds.1 ≤ 0 := by decide
  rw [boundedInteger, if_pos ⟨Int.le_trans hlow (Int.natCast_nonneg n), hn⟩]

theorem integer_toDigits (hn : (n : Int) < integerBounds.2) (rest : List Char) :
    integer (Nat.toDigits 10 n ++ '\n' :: rest) = some (.integer n, '\n' :: rest) := by
  have hdecimal := isDecimal_toDigits n
  have hmark : ∀ mark more, mark ≠ '\n' →
      Nat.toDigits 10 n ++ '\n' :: rest ≠ '0' :: mark :: more := by
    intro mark more hline heq
    cases hdigits : Nat.toDigits 10 n with
    | nil => exact Nat.toDigits_ne_nil hdigits
    | cons first ds =>
      rw [hdigits, List.cons_append, List.cons.injEq] at heq
      rw [heq.1] at hdigits
      rw [eq_nil_of_toDigits_eq_zero_cons hdigits, List.nil_append] at heq
      exact hline (List.cons.inj heq.2).1.symm
  unfold integer
  split
  · next heq => exact absurd heq (hmark 'x' _ (by decide))
  · next heq => exact absurd heq (hmark 'o' _ (by decide))
  · next heq => exact absurd heq (hmark 'b' _ (by decide))
  · rw [sign_append hdecimal]
    refine Option.bind_eq_some_iff.mpr ⟨_, wholeDigits_toDigits n rest, ?_⟩
    refine Option.bind_eq_some_iff.mpr ⟨.integer n, ?_, rfl⟩
    rw [if_neg Bool.false_ne_true, valueOf_toDigits (by decide) (by decide),
      boundedInteger_natCast hn]

theorem plainScalar_toDigits (hn : (n : Int) < integerBounds.2) (rest : List Char) :
    plainScalar (Nat.toDigits 10 n ++ '\n' :: rest) = some (.integer n, '\n' :: rest) := by
  have hdecimal := isDecimal_toDigits n
  have hword : ∀ (mark : Char) (word : List Char), isDigit 10 mark = false → mark ≠ '\n' →
      expect? (mark :: word) (Nat.toDigits 10 n ++ '\n' :: rest) = none :=
      fun mark word hdigit hline =>
    expect?_of_head (head?_append hdecimal hdigit hline rest) word
  have hfloat : decimalFloat (Nat.toDigits 10 n ++ '\n' :: rest) = none := by
    simp [decimalFloat, sign_append hdecimal, wholeDigits_toDigits]
  have hspecial : specialFloat (Nat.toDigits 10 n ++ '\n' :: rest) = none := by
    simp [specialFloat, sign_append hdecimal, hword 'i' _ rfl (by decide),
      hword 'n' _ rfl (by decide)]
  rw [plainScalar, hword 't' _ rfl (by decide), hword 'f' _ rfl (by decide),
    dateTime_append hdecimal, hfloat, hspecial, integer_toDigits hn]
  rfl

/-- A text that is read as a value up to the end of its line. -/
structure Spells (chars : List Char) (node : Node) : Prop where
  read : ∀ rest, value (chars ++ '\n' :: rest) = some ([([], node)], '\n' :: rest)
  /-- No blank stands in front. -/
  opens : ∀ c ∈ chars.head?, isSpace c = false

/-- Where no container begins, a value is a scalar. -/
theorem value_of_scalar (hbracket : '[' ∉ more.head?) (hbrace : '\x7b' ∉ more.head?) :
    value more = (scalar more).map fun (node, rest) => ([([], node)], rest) := by
  unfold value nestingLimit valueWithin
  split
  · exact absurd rfl hbracket
  · exact absurd rfl hbrace
  · rfl

theorem scalar_of_plain (hquote : '\x22' ∉ more.head?) (hapostrophe : '\x27' ∉ more.head?) :
    scalar more = plainScalar more := by
  unfold scalar
  split
  · exact absurd rfl hquote
  · exact absurd rfl hapostrophe
  · rfl

theorem spells_number (h : writtenNumber? n = some ds) : Spells ds (.integer n) := by
  unfold writtenNumber? at h
  split at h
  · next hn =>
    obtain rfl := Option.some.inj h
    have hhead : ∀ {mark : Char} (rest : List Char), isDigit 10 mark = false → mark ≠ '\n' →
        mark ∉ (Nat.toDigits 10 n ++ '\n' :: rest).head? := fun rest hdigit hline =>
      head?_append (isDecimal_toDigits n) hdigit hline rest
    refine ⟨fun rest => ?_, fun c hc => ?_⟩
    · rw [value_of_scalar (hhead rest rfl (by decide)) (hhead rest rfl (by decide)),
        scalar_of_plain (hhead rest rfl (by decide)) (hhead rest rfl (by decide)),
        plainScalar_toDigits hn]
      rfl
    · have hdigit := isDecimal_toDigits n c (List.mem_of_mem_head? hc)
      by_contra hspace
      have hblank : c = ' ' ∨ c = '\t' := by
        simpa [isSpace, Decidable.or_iff_not_imp_left] using hspace
      obtain rfl | rfl := hblank <;> exact absurd hdigit (by decide)
  · exact absurd h (by simp)

theorem spells_boolean (b : Bool) : Spells (writtenBoolean b) (.boolean b) := by
  cases b with
  | false => exact ⟨fun rest => rfl, by rintro _ ⟨⟩; rfl⟩
  | true => exact ⟨fun rest => rfl, by rintro _ ⟨⟩; rfl⟩

theorem spells_string (text : List Char) : Spells (writtenString text) (.text text) := by
  obtain ⟨quote, more, hwritten, hquote⟩ : ∃ quote more, writtenString text = quote :: more ∧
      (quote = '\x22' ∨ quote = '\x27') := by
    unfold writtenString writtenIn StringForm.quotes
    generalize StringForm.ofText text = form
    obtain ⟨_ | _, _ | _⟩ := form <;> exact ⟨_, _, rfl, by decide⟩
  refine ⟨fun rest => ?_, ?_⟩
  · have hstring : string (writtenString text ++ '\n' :: rest) = some (text, '\n' :: rest) :=
      string_writtenString (by simp) (by simp) text
    rw [hwritten] at hstring ⊢
    obtain rfl | rfl := hquote
    · rw [value_of_scalar (by simp) (by simp), List.cons_append, scalar,
        ← List.cons_append, hstring]
      rfl
    · rw [value_of_scalar (by simp) (by simp), List.cons_append, scalar,
        ← List.cons_append, hstring]
      rfl
  · rw [hwritten]
    obtain rfl | rfl := hquote <;> simp [isSpace]

end Toml

end TreeWatch
