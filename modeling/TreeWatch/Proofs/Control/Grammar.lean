import TreeWatch.Control
import TreeWatch.Proofs.Text.Encoding
import TreeWatch.Proofs.Text.Stripping

/-!
# The grammar of control lines

Without the blanks around it a control line is one of four letters, or a letter and a path with
blanks between them. Whatever else is written is refused, and a path is taken as it stands.
-/

namespace TreeWatch

namespace Control

/-- What the lines are, without the blanks around them, that spell a command. -/
inductive Spells : List Char → Command → Prop where
  | check : Spells ['c'] .check
  | dump : Spells ['d'] .dump
  | rebuild : Spells ['r'] .rebuild
  | quit : Spells ['q'] .quit
  /-- Blanks inside a path belong to it. -/
  | lookup {gap path : List Char} (hgap : gap ≠ []) (hblank : AllBlank gap) (hpath : path ≠ [])
      (htrim : IsTrim path) : Spells ('p' :: (gap ++ path)) (.lookup ⟨Utf8.encode path⟩)

variable {line core verb argument rest path : List Char} {command : Command} {refusal : Refusal}

theorem Spells.isTrim (h : Spells core command) : IsTrim core := by
  cases h with
  | check | dump | rebuild | quit => exact isTrim_singleton rfl
  | @lookup gap path hgap hblank hpath htrim =>
    refine ⟨fun c hc => ?_, fun c hc => htrim.last c ?_⟩
    · obtain rfl : 'p' = c := Option.some.inj hc
      rfl
    · rwa [← List.cons_append, List.getLast?_append_of_ne_nil _ hpath] at hc

/-! ## Verbs and arguments -/

theorem exists_gap (h : IsTrim (verb ++ rest)) (hrest : rest ≠ [])
    (hfirst : ∀ c, rest.head? = some c → isBlank c = true) :
    strip rest ≠ [] ∧ ∃ gap, gap ≠ [] ∧ AllBlank gap ∧ rest = gap ++ strip rest := by
  obtain ⟨gap, back, hcut, hgap, hback, htrim⟩ := strips_strip rest
  have hlast : ∀ c, rest.getLast? = some c → isBlank c = false := fun c hc =>
    h.last c (by rwa [List.getLast?_append_of_ne_nil _ hrest])
  obtain rfl : back = [] := by
    by_contra hne
    have hend := List.getLast?_eq_some_getLast hne
    have hblank := hback _ (List.mem_of_getLast? hend)
    cases hblank.symm.trans (hlast _ (by rw [hcut, List.getLast?_append_of_ne_nil _ hne, hend]))
  rw [List.append_nil] at hcut
  refine ⟨fun hnil => ?_, gap, fun hnil => ?_, hgap, hcut⟩
  · rw [hnil, List.append_nil] at hcut
    have hend := List.getLast?_eq_some_getLast hrest
    cases (hgap _ (hcut ▸ List.mem_of_getLast? hend)).symm.trans (hlast _ hend)
  · rw [hnil, List.nil_append] at hcut
    have hstart := List.head?_eq_some_head hrest
    cases (hfirst _ hstart).symm.trans (htrim.head _ (hcut ▸ hstart))

/-- A line without blanks around it is its verb, or its verb and its argument with blanks between
them. -/
theorem verbAndArgument_cases (h : IsTrim core) (hva : verbAndArgument core = (verb, argument)) :
    core = verb ∧ argument = [] ∨
      argument ≠ [] ∧ IsTrim argument ∧ ∃ gap, gap ≠ [] ∧ AllBlank gap ∧
        core = verb ++ (gap ++ argument) := by
  obtain ⟨hverb, hargument⟩ := Prod.mk.inj hva
  have hcore : verb ++ core.dropWhile (!isBlank ·) = core := by
    rw [← hverb, List.takeWhile_append_dropWhile]
  have hstart := List.head?_dropWhile_not (!isBlank ·) core
  generalize core.dropWhile (!isBlank ·) = rest at hargument hcore hstart
  by_cases hrest : rest = []
  · subst hrest
    exact .inl ⟨by rw [← hcore, List.append_nil], hargument.symm⟩
  · have hfirst (c : Char) (hc : rest.head? = some c) : isBlank c = true := by
      simpa [hc] using hstart
    obtain ⟨hne, gap, hgap, hblank, hcut⟩ := exists_gap (hcore ▸ h) hrest hfirst
    rw [hargument] at hne hcut
    exact .inr ⟨hne, hargument ▸ isTrim_strip rest, gap, hgap, hblank, by rw [← hcore, ← hcut]⟩

theorem eq_verb_of_verbAndArgument (h : IsTrim core) (hva : verbAndArgument core = (verb, [])) :
    core = verb := by
  obtain ⟨hcore, -⟩ | ⟨hne, -⟩ := verbAndArgument_cases h hva
  · exact hcore
  · exact absurd rfl hne

theorem verbAndArgument_append {gap : List Char} (hverb : ∀ c ∈ verb, isBlank c = false)
    (hgap : gap ≠ []) (hblank : AllBlank gap) (h : IsTrim argument) :
    verbAndArgument (verb ++ (gap ++ argument)) = (verb, argument) := by
  obtain ⟨first, gap, rfl⟩ := List.exists_cons_of_ne_nil hgap
  have hfirst := hblank first List.mem_cons_self
  have hstrip : strip (first :: (gap ++ argument)) = argument :=
    Strips.strip_eq ⟨first :: gap, [], by simp, hblank, by simp [AllBlank], h⟩
  have hall : ∀ c ∈ verb, (!isBlank c) = true := fun c hc => by simp [hverb c hc]
  rw [verbAndArgument, List.takeWhile_append_of_pos hall, List.dropWhile_append_of_pos hall]
  simp [hfirst, hstrip]

/-! ## Lines -/

theorem spells_of_read (h : read line = .ok command) : Spells (strip line) command := by
  have htrim := isTrim_strip line
  unfold read at h
  generalize strip line = core at *
  split at h
  · next hva => exact eq_verb_of_verbAndArgument htrim hva ▸ Except.ok.inj h ▸ .check
  · next hva => exact eq_verb_of_verbAndArgument htrim hva ▸ Except.ok.inj h ▸ .dump
  · next hva => exact eq_verb_of_verbAndArgument htrim hva ▸ Except.ok.inj h ▸ .rebuild
  · next hva => exact eq_verb_of_verbAndArgument htrim hva ▸ Except.ok.inj h ▸ .quit
  · cases h
  · next path hnonempty hva =>
    obtain ⟨-, hnil⟩ | ⟨hne, hpath, gap, hgap, hblank, rfl⟩ := verbAndArgument_cases htrim hva
    · exact (hnonempty hnil).elim
    · exact Except.ok.inj h ▸ .lookup hgap hblank hne hpath
  · cases h

theorem refusal_of_read (h : read line = .error refusal) :
    strip line = ['p'] ∧ refusal = .pathMissing ∨ strip line ≠ ['p'] ∧
    refusal = .unknown (strip line) := by
  have htrim := isTrim_strip line
  unfold read at h
  generalize strip line = core at *
  split at h
  · cases h
  · cases h
  · cases h
  · cases h
  · next hva => exact .inl ⟨eq_verb_of_verbAndArgument htrim hva, (Except.error.inj h).symm⟩
  · cases h
  · next hother =>
    refine .inr ⟨?_, (Except.error.inj h).symm⟩
    rintro rfl
    exact hother [] rfl

theorem read_of_spells (h : Spells (strip line) command) : read line = .ok command := by
  unfold read
  generalize strip line = core at *
  cases h with
  | check => rfl
  | dump => rfl
  | rebuild => rfl
  | quit => rfl
  | @lookup gap path hgap hblank hpath htrim =>
    have hverb : ∀ c ∈ ['p'], isBlank c = false := List.forall_mem_singleton.mpr (by decide)
    have hva : verbAndArgument ('p' :: (gap ++ path)) = (['p'], path) :=
      verbAndArgument_append hverb hgap hblank htrim
    rw [hva]
    cases path with
    | nil => exact absurd rfl hpath
    | cons c path => rfl

theorem read_eq_ok_iff : read line = .ok command ↔ Spells (strip line) command :=
  ⟨spells_of_read, read_of_spells⟩

theorem read_eq_error_iff : read line = .error refusal ↔
    (∀ command, ¬Spells (strip line) command) ∧
      refusal = if strip line = ['p'] then .pathMissing else .unknown (strip line) := by
  constructor
  · intro h
    refine ⟨fun command hspells => ?_, ?_⟩
    · cases h.symm.trans (read_of_spells hspells)
    · obtain ⟨hline, rfl⟩ | ⟨hline, rfl⟩ := refusal_of_read h
      · rw [if_pos hline]
      · rw [if_neg hline]
  · rintro ⟨hnone, rfl⟩
    cases h : read line with
    | ok command => exact absurd (spells_of_read h) (hnone command)
    | error refusal =>
      obtain ⟨hline, rfl⟩ | ⟨hline, rfl⟩ := refusal_of_read h
      · rw [if_pos hline]
      · rw [if_neg hline]

theorem command?_eq_some_iff : command? line = some command ↔ read line = .ok command := by
  unfold command?
  split
  · next hempty =>
    have hnone : ¬read line = .ok command := fun h => by
      have hspells := spells_of_read h
      rw [List.isEmpty_iff.mp hempty] at hspells
      cases hspells
    simp [hnone]
  · cases read line <;> simp [Except.toOption]

/-- A line is read by the grammar after stripping, and anything else is refused; it has a command
exactly if it is read. A path that has no blanks at its ends, and is not empty, comes back as it was
written. -/
theorem lines_are_read_by_the_grammar (line : List Char) :
    (∀ core, Strips line core ↔ core = strip line) ∧
    (∀ command, read line = .ok command ↔ Spells (strip line) command) ∧
    (∀ refusal, read line = .error refusal ↔ (∀ command, ¬Spells (strip line) command) ∧
      refusal = if strip line = ['p'] then .pathMissing else .unknown (strip line)) ∧
    (∀ command, command? line = some command ↔ read line = .ok command) ∧
    ∀ path, path ≠ [] → IsTrim path →
      read (['p', ' '] ++ path) = .ok (.lookup ⟨Utf8.encode path⟩) := by
  refine ⟨fun core => strip_eq_iff.symm.trans eq_comm, fun command => read_eq_ok_iff,
    fun refusal => read_eq_error_iff, fun command => command?_eq_some_iff, fun path hne hpath => ?_⟩
  have hspells := Spells.lookup (List.cons_ne_nil ' ' [])
    (List.forall_mem_singleton.mpr (by decide)) hne hpath
  have hstrip : strip (['p', ' '] ++ path) = 'p' :: ([' '] ++ path) :=
    Strips.strip_eq ⟨[], [], by simp, by simp [AllBlank], by simp [AllBlank], hspells.isTrim⟩
  exact read_of_spells (hstrip ▸ hspells)

/-- The ideographic space inside the path is kept. -/
theorem lines_are_read_by_the_grammar_of_inner_blank :
    ['/', 'a', '\u3000', 'b'] ≠ [] ∧ IsTrim ['/', 'a', '\u3000', 'b'] ∧
      read ['p', ' ', '/', 'a', '\u3000', 'b'] =
        .ok (.lookup ⟨[47, 97, 0xE3, 0x80, 0x80, 98]⟩) := by
  have hne : ['/', 'a', '\u3000', 'b'] ≠ [] := List.cons_ne_nil _ _
  have htrim : IsTrim ['/', 'a', '\u3000', 'b'] := ⟨by simp [isBlank], by simp [isBlank]⟩
  exact ⟨hne, htrim, (lines_are_read_by_the_grammar []).2.2.2.2 _ hne htrim⟩

/-- The empty path has no blanks at its ends, and yet it is not read back: after the blank that
stands before it nothing is left for a path. -/
theorem empty_path_is_refused : IsTrim [] ∧ read (['p', ' '] ++ []) = .error .pathMissing ∧
    ¬∀ path, IsTrim path → read (['p', ' '] ++ path) = .ok (.lookup ⟨Utf8.encode path⟩) := by
  have htrim : IsTrim [] := ⟨by simp, by simp⟩
  have hrefused : read (['p', ' '] ++ []) = .error .pathMissing := rfl
  exact ⟨htrim, hrefused, fun hall => by cases hrefused.symm.trans (hall [] htrim)⟩

end Control

end TreeWatch
