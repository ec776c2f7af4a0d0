import TreeWatch.Control
import TreeWatch.Proofs.Text.Encoding
import TreeWatch.Proofs.Text.Stripping

/-!
# Taking control input

From a stream of bytes every command is taken that stands on a line before the first line that is
not text, in the order of the lines. Blank lines and lines that are no command take nothing else
away with them. So streams with a line end between them are taken one after the other.
-/

namespace TreeWatch

theorem Utf8.decode?_dropOneAtEnd (line : Bytes) :
    decode? (dropOneAtEnd 13 line) = (decode? line).map (dropOneAtEnd '\r') := by
  cases htext : decode? line with
  | some text =>
    rw [decode?_eq_some_iff.mp htext]
    exact (congrArg decode? (dropOneAtEnd_encode (by decide : '\r'.toNat < 0x80) text)).trans
      (decode?_encode _)
  | none =>
    rw [Option.map_none, Option.eq_none_iff_forall_ne_some]
    intro text hsome
    have hdropped := decode?_eq_some_iff.mp hsome
    unfold dropOneAtEnd at hdropped
    split at hdropped
    · next hlast =>
      -- If the rest is text, so is the whole line: its last byte is a character by itself.
      obtain ⟨init, rfl⟩ := List.getLast?_eq_some_iff.mp hlast
      rw [List.dropLast_concat] at hdropped
      have hwhole : decode? (init ++ [13]) = some (text ++ ['\r']) :=
        decode?_eq_some_iff.mpr (by rw [hdropped, encode_append]; rfl)
      cases htext.symm.trans hwhole
    · cases htext.symm.trans (decode?_eq_some_iff.mpr hdropped)

theorem strip_dropOneAtEnd (text : List Char) : strip (dropOneAtEnd '\r' text) = strip text := by
  unfold dropOneAtEnd
  split
  · next hlast =>
    obtain ⟨init, rfl⟩ := List.getLast?_eq_some_iff.mp hlast
    rw [List.dropLast_concat, strip_append_of_allBlank (List.forall_mem_singleton.mpr (by decide))]
  · rfl

namespace Control

variable {isTaken : Bool} {lines front back other : List Bytes} {line : Bytes} {text : List Char}

/-- What a line comes to that is text. -/
def Intake.ofText (text : List Char) : Intake :=
  match command? text with
  | some command => ⟨[command], 1, []⟩
  | none => ⟨[], 0, lineWarnings text⟩

/-- What one intake and then another come to. -/
def Intake.followedBy (first second : Intake) : Intake :=
  ⟨first.commands ++ second.commands, first.count + second.count, first.log ++ second.log⟩

/-- The lines of a stream: the stretches between line feeds, each without a carriage return at its
end. -/
def linesOf (input : Bytes) : List Bytes := (splitAtEach 10 input).map (dropOneAtEnd 13)

/-- The commands on lines before the first that is not text, in their order. -/
def commandsOf (lines : List Bytes) : List Command :=
  ((lines.map Utf8.decode?).takeWhile Option.isSome).filterMap (·.bind command?)

/-! ## Line by line -/

theorem Intake.ofText_congr {first second : List Char} (h : strip first = strip second) :
    ofText first = ofText second := by
  have hread : read first = read second := by rw [read, read, h]
  rw [ofText, ofText, command?, command?, lineWarnings, lineWarnings, h, hread]

theorem takeLines_cons_of_text (htext : Utf8.decode? line = some text) :
    takeLines true (line :: lines) = (Intake.ofText text).followedBy (takeLines true lines) := by
  simp only [takeLines, htext, Intake.ofText]
  cases command? text <;> simp [Intake.followedBy, Nat.add_comm]

theorem takeLines_cons_of_not_text (htext : Utf8.decode? line = none) :
    takeLines isTaken (line :: lines) =
    ⟨[], 0, [.warn "failed to read control input: stream did not contain valid UTF-8"]⟩ := by
  rw [takeLines, htext]

theorem takeLines_append (hfront : ∀ line ∈ front, (Utf8.decode? line).isSome) :
    takeLines true (front ++ back) = (takeLines true front).followedBy (takeLines true back) := by
  induction front with
  | nil => simp [takeLines, Intake.followedBy]
  | cons line front ih =>
    obtain ⟨text, htext⟩ := Option.isSome_iff_exists.mp (hfront line (by simp))
    rw [List.cons_append, takeLines_cons_of_text htext, takeLines_cons_of_text htext,
      ih fun line hline => hfront line (by simp [hline])]
    simp [Intake.followedBy, Nat.add_assoc]

theorem commands_takeLines (lines : List Bytes) :
    (takeLines true lines).commands = commandsOf lines := by
  induction lines with
  | nil => rfl
  | cons line lines ih =>
    cases htext : Utf8.decode? line with
    | none => simp [takeLines_cons_of_not_text htext, commandsOf, htext]
    | some text =>
      have hrest : commandsOf (line :: lines) = (command? text).toList ++ commandsOf lines := by
        cases hcommand : command? text <;> simp [commandsOf, htext, hcommand]
      rw [takeLines_cons_of_text htext, hrest, ← ih, Intake.ofText]
      cases command? text <;> rfl

theorem count_takeLines (lines : List Bytes) :
    (takeLines true lines).count = (takeLines true lines).commands.length := by
  induction lines with
  | nil => rfl
  | cons line lines ih =>
    cases htext : Utf8.decode? line with
    | none => rw [takeLines_cons_of_not_text htext]; rfl
    | some text =>
      have hfirst : (Intake.ofText text).count = (Intake.ofText text).commands.length := by
        unfold Intake.ofText
        cases command? text <;> rfl
      rw [takeLines_cons_of_text htext]
      simp [Intake.followedBy, hfirst, ih]

theorem takeLines_false (lines : List Bytes) :
    (takeLines false lines).commands = [] ∧ (takeLines false lines).count = 0 := by
  induction lines with
  | nil => exact ⟨rfl, rfl⟩
  | cons line lines ih =>
    rw [takeLines]
    cases Utf8.decode? line with
    | none => exact ⟨rfl, rfl⟩
    | some text =>
      cases hcommand : command? text with
      | none => simpa [hcommand] using ih
      | some command => simp [hcommand]

/-! ## Whole streams -/

/-- How lines are cut at the end of a stream does not matter if they come to the same. -/
theorem takeLines_append_congr (h : takeLines true back = takeLines true other)
    (front : List Bytes) :
    takeLines true (front ++ back) = takeLines true (front ++ other) := by
  induction front with
  | nil => exact h
  | cons line front ih =>
    cases htext : Utf8.decode? line with
    | none => rw [List.cons_append, List.cons_append, takeLines_cons_of_not_text htext,
        takeLines_cons_of_not_text htext]
    | some text =>
      rw [List.cons_append, List.cons_append, takeLines_cons_of_text htext,
        takeLines_cons_of_text htext, ih]

theorem takeLines_dropOneAtEnd (line : Bytes) :
    takeLines true [dropOneAtEnd 13 line] = takeLines true [line] := by
  have hdropped := Utf8.decode?_dropOneAtEnd line
  cases htext : Utf8.decode? line with
  | none =>
    rw [htext, Option.map_none] at hdropped
    rw [takeLines_cons_of_not_text htext, takeLines_cons_of_not_text hdropped]
  | some text =>
    rw [htext, Option.map_some] at hdropped
    rw [takeLines_cons_of_text htext, takeLines_cons_of_text hdropped,
      Intake.ofText_congr (strip_dropOneAtEnd text)]

/-- The last stretch of a stream may be taken without its carriage return, and it may be taken if it
is empty. -/
theorem take_eq_takeLines (input : Bytes) : take true input = takeLines true (linesOf input) := by
  obtain ⟨init, last, hsplit⟩ := (List.eq_nil_or_concat' (splitAtEach 10 input)).resolve_left
    (splitAtEach_ne_nil 10 input)
  rw [take, Bytes.lines, linesBy, linesOf, hsplit, List.dropLast_concat, List.getLast?_concat,
    List.map_append]
  refine takeLines_append_congr ?_ _
  cases last with
  | nil => exact (takeLines_cons_of_text Utf8.decode?_nil : takeLines true [[]] = _).symm
  | cons b last => exact (takeLines_dropOneAtEnd (b :: last)).symm

theorem linesOf_append (front back : Bytes) :
    linesOf (front ++ 10 :: back) = linesOf front ++ linesOf back := by
  rw [linesOf, splitAtEach_append, List.map_append]
  rfl

theorem isSome_decode?_of_mem_linesOf {input : Bytes} (h : (Utf8.decode? input).isSome)
    (hline : line ∈ linesOf input) : (Utf8.decode? line).isSome := by
  obtain ⟨text, htext⟩ := Option.isSome_iff_exists.mp h
  obtain ⟨stretch, hstretch, rfl⟩ := List.mem_map.mp hline
  have hsplit : splitAtEach 10 input = (splitAtEach '\n' text).map Utf8.encode :=
    Utf8.decode?_eq_some_iff.mp htext ▸ Utf8.splitAtEach_encode (by decide : '\n'.toNat < 0x80) text
  obtain ⟨part, -, rfl⟩ := List.mem_map.mp (hsplit ▸ hstretch)
  rw [Utf8.decode?_dropOneAtEnd, Utf8.decode?_encode]
  rfl

/-- Every command on a line before the first that is not text is taken, once and in its place, and
counted; if nobody takes commands, none is. After a stream that is text the next is taken as if it
were the first. -/
theorem commands_are_taken_in_order (input : Bytes) :
    (take true input).commands = commandsOf (linesOf input) ∧
    (take true input).count = (commandsOf (linesOf input)).length ∧
    (take false input).commands = [] ∧ (take false input).count = 0 ∧
    ∀ more, (Utf8.decode? input).isSome →
      take true (input ++ 10 :: more) = (take true input).followedBy (take true more) := by
  refine ⟨?_, ?_, (takeLines_false _).1, (takeLines_false _).2, fun more htext => ?_⟩
  · rw [take_eq_takeLines, commands_takeLines]
  · rw [take_eq_takeLines, count_takeLines, commands_takeLines]
  · rw [take_eq_takeLines, take_eq_takeLines, take_eq_takeLines, linesOf_append,
      takeLines_append fun line => isSome_decode?_of_mem_linesOf htext]

/-- The streams `c` and `q`, bytes that are no text, `d`, with a line end between each and the
next. -/
theorem commands_are_taken_in_order_of_stray_byte :
    (Utf8.decode? [99, 13]).isSome ∧
      take true ([99, 13] ++ 10 :: [113, 10, 0xFF, 10, 100]) =
        (take true [99, 13]).followedBy (take true [113, 10, 0xFF, 10, 100]) ∧
      (take true [99, 13]).commands = [.check] ∧
      (take true [113, 10, 0xFF, 10, 100]).commands = [.quit] := by
  have htext : (Utf8.decode? [99, 13]).isSome :=
    Option.isSome_iff_exists.mpr ⟨['c', '\r'], Utf8.decode?_encode ['c', '\r']⟩
  obtain ⟨hfirst, -, -, -, hjoined⟩ := commands_are_taken_in_order [99, 13]
  obtain ⟨hsecond, -⟩ := commands_are_taken_in_order [113, 10, 0xFF, 10, 100]
  exact ⟨htext, hjoined _ htext, hfirst.trans (by decide +kernel),
    hsecond.trans (by decide +kernel)⟩

end Control

end TreeWatch
