import TreeWatch.Proofs.Toml.Values
import TreeWatch.Toml.Document

/-!
# Documents that were written

A document of one pair to a line, each with a name of its own, is read as the table of these pairs.
-/

namespace TreeWatch

namespace Toml

abbrev Table := List (List Char × Node)

def statementOf (pair : List Char × Node) : Statement := .pair ⟨[], pair.1⟩ [([], pair.2)]

def entryOf (pair : List Char × Node) : Place × Node := ([.key pair.1], pair.2)

variable {c : Char} {chars name text rest more front back : List Char} {node : Node}
  {table other : Table} {fuel : Nat}

/-- A name that stands without quotes. -/
structure IsBareName (name : List Char) : Prop where
  ne_nil : name ≠ []
  bare : ∀ c ∈ name, isBare c = true

/-- A text that gives names their values, one to a line. -/
inductive Lines : List Char → Table → Prop where
  | nil : Lines [] []
  | cons {name : String} {chars text : List Char} {node : Node} {table : Table}
      (hname : IsBareName name.toList) (hchars : Spells chars node) (htext : Lines text table) :
      Lines (writtenPair name chars ++ text) ((name.toList, node) :: table)

theorem Lines.append (hfront : Lines front table) (hback : Lines back other) :
    Lines (front ++ back) (table ++ other) := by
  induction hfront with
  | nil => exact hback
  | cons hname hchars _ ih =>
    rw [List.append_assoc, List.cons_append]
    exact .cons hname hchars ih

theorem Lines.single {name : String} (hname : IsBareName name.toList) (hchars : Spells chars node) :
    Lines (writtenPair name chars) [(name.toList, node)] := by
  simpa using Lines.cons hname hchars .nil

/-! ## One line -/

theorem name_append (h : IsBareName name) (hmore : ∀ c ∈ more.head?, isBare c = false) :
    Toml.name (name ++ more) = some (name, more) := by
  have htake : (name ++ more).takeWhile isBare = name := by
    rw [List.takeWhile_append_of_pos h.bare]
    cases more with
    | nil => simp
    | cons c more => simp [hmore c rfl]
  have hdrop : (name ++ more).dropWhile isBare = more := by
    rw [List.dropWhile_append_of_pos h.bare]
    cases more with
    | nil => simp
    | cons c more => simp [hmore c rfl]
  rw [Toml.name, htake, hdrop]
  cases name with
  | nil => exact absurd rfl h.ne_nil
  | cons => rfl

theorem not_isSpace_of_isBare (h : isBare c = true) : isSpace c = false := by
  by_contra hspace
  have hblank : c = ' ' ∨ c = '\t' := by simpa [isSpace, Decidable.or_iff_not_imp_left] using hspace
  obtain rfl | rfl := hblank <;> exact absurd h (by decide)

theorem skipSpace_of_head (h : ∀ c ∈ text.head?, isSpace c = false) : skipSpace text = text := by
  cases text with
  | nil => rfl
  | cons c text => exact List.dropWhile_cons_of_neg (by simp [h c rfl])

theorem IsBareName.isBare_of_head? (h : IsBareName name) (hc : c ∈ (name ++ more).head?) :
    isBare c = true := by
  cases name with
  | nil => exact absurd rfl h.ne_nil
  | cons first name =>
    obtain rfl : first = c := by simpa using hc
    exact h.bare first List.mem_cons_self

theorem IsBareName.skipSpace_append (h : IsBareName name) (more : List Char) :
    skipSpace (name ++ more) = name ++ more :=
  skipSpace_of_head fun _ hc => not_isSpace_of_isBare (h.isBare_of_head? hc)

theorem key_append (h : IsBareName name) (rest : List Char) :
    key (name ++ ' ' :: '=' :: rest) = some (⟨[], name⟩, '=' :: rest) := by
  have hname : Toml.name (name ++ ' ' :: '=' :: rest) = _ := name_append h (by simp [isBare])
  rw [key, nestingLimit, keyWithin, h.skipSpace_append, hname]
  rfl

theorem Spells.skipSpace_append (h : Spells chars node) (rest : List Char) :
    skipSpace (chars ++ '\n' :: rest) = chars ++ '\n' :: rest := by
  refine skipSpace_of_head fun c hc => ?_
  cases chars with
  | nil =>
    obtain rfl : '\n' = c := by simpa using hc
    rfl
  | cons first chars => exact h.opens c hc

theorem writtenPair_append (name : String) (chars rest : List Char) :
    writtenPair name chars ++ rest =
    name.toList ++ ' ' :: '=' :: ' ' :: (chars ++ '\n' :: rest) := by
  simp [writtenPair]

theorem statement_writtenPair {name : String} (hname : IsBareName name.toList)
    (hchars : Spells chars node) (rest : List Char) : statement (writtenPair name chars ++ rest) =
      some (statementOf (name.toList, node), rest) := by
  have hbracket : ∀ more, writtenPair name chars ++ rest ≠ '[' :: more := by
    intro more heq
    rw [writtenPair_append] at heq
    exact absurd (hname.isBare_of_head? (Option.mem_def.mpr (congrArg List.head? heq))) (by decide)
  have hskip : skipSpace (' ' :: (chars ++ '\n' :: rest)) = chars ++ '\n' :: rest :=
    hchars.skipSpace_append rest
  have hline : restOfLine? ('\n' :: rest) = some rest := rfl
  unfold statement
  split
  · next heq => exact absurd heq (hbracket _)
  · next heq => exact absurd heq (hbracket _)
  · simp [writtenPair_append, key_append hname, expect?, hskip, hchars.read, hline, statementOf]

/-! ## All lines -/

theorem startsStatement_append (h : IsBareName name) (more : List Char) :
    startsStatement (name ++ more) = true := by
  have hhead : ∀ c rest, name ++ more = c :: rest → isBare c = true := fun c rest heq =>
    h.isBare_of_head? (Option.mem_def.mpr (congrArg List.head? heq))
  unfold startsStatement
  split
  · next heq => exact absurd (List.append_eq_nil_iff.mp heq).1 h.ne_nil
  · next heq => exact absurd (hhead _ _ heq) (by decide)
  · next heq => exact absurd (hhead _ _ heq) (by decide)
  · next heq => exact absurd (hhead _ _ heq) (by decide)
  · rfl

theorem Lines.statementsWithin_eq (h : Lines text table) (hfuel : table.length < fuel) :
    statementsWithin fuel text = some (table.map statementOf) := by
  induction h generalizing fuel with
  | nil =>
    cases fuel with
    | zero => exact absurd hfuel (Nat.not_lt_zero _)
    | succ fuel => rfl
  | @cons name chars text node table hname hchars htext ih =>
    cases fuel with
    | zero => exact absurd hfuel (Nat.not_lt_zero _)
    | succ fuel =>
      have hrest := ih (Nat.lt_of_succ_lt_succ hfuel)
      have hskip : skipSpace (writtenPair name chars ++ text) = writtenPair name chars ++ text := by
        rw [writtenPair_append, hname.skipSpace_append]
      have hstarts : startsStatement (writtenPair name chars ++ text) = true := by
        rw [writtenPair_append, startsStatement_append hname]
      rw [statementsWithin, hskip]
      split
      · next heq =>
        rw [heq] at hstarts
        exact absurd hstarts (by decide)
      · simp [hstarts, statement_writtenPair hname hchars, hrest]

theorem Lines.length_le (h : Lines text table) : table.length ≤ text.length := by
  induction h with
  | nil => exact Nat.le_refl 0
  | cons _ _ _ ih =>
    simp [writtenPair]
    omega

theorem Lines.statements?_eq (h : Lines text table) :
    statements? text = some (table.map statementOf) := by
  have hmark : expect? ['\uFEFF'] text = none := by
    refine expect?_of_head (fun hmem => ?_) []
    cases h with
    | nil => cases hmem
    | cons hname _ _ =>
      rw [writtenPair_append] at hmem
      exact absurd (hname.isBare_of_head? hmem) (by decide)
  rw [statements?, hmark]
  exact h.statementsWithin_eq (Nat.lt_succ_of_le h.length_le)

/-! ## The table -/

/-- The contents of a document that holds a table and nothing else. -/
def contentsOf (table : Table) : Contents := ([], .table .header) :: table.map entryOf

theorem get?_contentsOf (name : List Char) (table : Table) :
    (contentsOf table).get? [.key name] = table.lookup name := by
  have hentries : (table.map entryOf).lookup [.key name] = table.lookup name := by
    induction table with
    | nil => rfl
    | cons pair table ih =>
      have hplace : ([Step.key name] == [Step.key pair.1]) = (name == pair.1) := by
        rw [Bool.eq_iff_iff, beq_iff_eq, beq_iff_eq, List.singleton_inj, Step.key.injEq]
      rw [List.map_cons, entryOf, List.lookup_cons, List.lookup_cons, hplace, ih]
  exact hentries

theorem extend?_statementOf {pair : List Char × Node} (hnew : table.lookup pair.1 = none) :
    Document.extend? ⟨contentsOf table, []⟩ (statementOf pair) = some ⟨contentsOf (table ++ [pair]),
      []⟩ := by
  have hroot : (contentsOf table).get? [] = some (.table .header) := rfl
  have hname : (contentsOf table).get? [.key pair.1] = none :=
    (get?_contentsOf pair.1 table).trans hnew
  have hcontents : contentsOf table ++ [([.key pair.1], pair.2)] =
      contentsOf (table ++ [pair]) := by
    simp [contentsOf, entryOf]
  simp [Document.extend?, statementOf, Contents.insert?, Contents.descend, hroot, hname,
    Contents.within, hcontents]

theorem foldlM_statementOf {table back : Table} (h : ((table ++ back).map Prod.fst).Nodup) :
    (back.map statementOf).foldlM Document.extend? ⟨contentsOf table, []⟩ =
      some ⟨contentsOf (table ++ back), []⟩ := by
  induction back generalizing table with
  | nil => simp
  | cons pair back ih =>
    have hnew : table.lookup pair.1 = none := by
      rw [List.lookup_eq_none_iff]
      intro other hother
      rw [List.map_append, List.nodup_append] at h
      simpa using (h.2.2 other.1 (List.mem_map_of_mem hother) pair.1 (by simp)).symm
    rw [List.map_cons, List.foldlM_cons, extend?_statementOf hnew]
    simpa using @ih (table ++ [pair]) (by simpa using h)

/-- A text of lines whose names differ is read as their table. -/
theorem Lines.read?_eq (h : Lines text table) (hnames : (table.map Prod.fst).Nodup) :
    read? text = some (contentsOf table) := by
  have hfold : (table.map statementOf).foldlM Document.extend? .empty =
      some ⟨contentsOf table, []⟩ :=
    @foldlM_statementOf [] table hnames
  simp [read?, h.statements?_eq, hfold]

end Toml

end TreeWatch
