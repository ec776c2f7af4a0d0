import TreeWatch.Alarm
import TreeWatch.Proofs.Text.Encoding
import TreeWatch.Proofs.WatchTable.Entries

/-!
# What a listing tells

A listing is read back line by line. A slot and a watch are written without a space in them, so the
first two spaces of a line are the ones behind them, whatever spaces and digits the path behind the
third has.
-/

namespace TreeWatch

/-- A path that is text without line ends. -/
def Path.IsOneLine (p : Path) : Prop :=
  ∃ text, p.bytes = Utf8.encode text ∧ '\n' ∉ text ∧ '\r' ∉ text

namespace WatchTable

variable {table other : WatchTable} {slot : Nat} {entry : Entry} {c : Char} {text : List Char}

/-- The number that a row of decimal digits writes. -/
def readNumber? (text : List Char) : Option Nat :=
  if !text.isEmpty && text.all Char.isDigit then some (Nat.ofDigitChars 10 text 0) else none

/-- The number that decimal digits write with or without a minus sign before them. -/
def readInteger? : List Char → Option Int
  | '-' :: text => (readNumber? text).map fun n => -n
  | text => (readNumber? text).map Int.ofNat

/-- What the first line of a listing says: the numbers of entries and slots. -/
def readHeadLine? (line : String) : Option (Nat × Nat) :=
  match splitAtEach ' ' line.toList with
  | [_, _, size, _, _, _, capacity, _] => do
    let size ← readNumber? size
    let capacity ← readNumber? capacity
    some (size, capacity)
  | _ => none

/-- What any other line of a listing says: a slot, a watch and a path. -/
def readEntryLine? (line : String) : Option (Nat × Entry) :=
  match splitAtEach ' ' line.toList with
  | slot :: id :: [] :: path => do
    let slot ← readNumber? slot
    let id ← readInteger? id
    some (slot, ⟨⟨id⟩, ⟨Utf8.encode (joinWith ' ' path)⟩⟩)
  | _ => none

/-! ## Numbers in a line -/

theorem notMem_toDigits (hdigit : c.isDigit = false) (n : Nat) : c ∉ Nat.toDigits 10 n := fun hc =>
  Bool.false_ne_true (hdigit.symm.trans (Nat.isDigit_of_mem_toDigits (by decide) (by decide) hc))

theorem notMem_repr_nat (hdigit : c.isDigit = false) (n : Nat) : c ∉ n.repr.toList := by
  rw [Nat.repr_eq_ofList_toDigits, String.toList_ofList]
  exact notMem_toDigits hdigit n

theorem notMem_repr_int (hdigit : c.isDigit = false) (hsign : c ≠ '-') (i : Int) :
    c ∉ i.repr.toList := by
  cases i with
  | ofNat n => exact notMem_repr_nat hdigit n
  | negSucc n =>
    have hrepr : (Int.negSucc n).repr.toList = '-' :: (n + 1).repr.toList := by simp [Int.repr]
    rw [hrepr, List.mem_cons, not_or]
    exact ⟨hsign, notMem_repr_nat hdigit (n + 1)⟩

theorem readNumber?_repr (n : Nat) : readNumber? n.repr.toList = some n := by
  have hdigits : (Nat.toDigits 10 n).all Char.isDigit = true :=
    List.all_eq_true.mpr fun _ => Nat.isDigit_of_mem_toDigits (by decide) (by decide)
  have hne : (Nat.toDigits 10 n).isEmpty = false :=
    List.isEmpty_eq_false_iff.mpr Nat.toDigits_ne_nil
  rw [Nat.repr_eq_ofList_toDigits, String.toList_ofList, readNumber?, hdigits, hne,
    Nat.ofDigitChars_ten_toDigits]
  rfl

theorem readInteger?_repr (i : Int) : readInteger? i.repr.toList = some i := by
  cases i with
  | ofNat n =>
    have hsign : ∀ text, n.repr.toList ≠ '-' :: text := fun text htext =>
      notMem_repr_nat (c := '-') rfl n (htext ▸ List.mem_cons_self)
    rw [show (Int.ofNat n).repr = n.repr from rfl, readInteger?, readNumber?_repr]
    · rfl
    · exact hsign
  | negSucc n =>
    have hrepr : (Int.negSucc n).repr.toList = '-' :: (n + 1).repr.toList := by simp [Int.repr]
    rw [hrepr, readInteger?, readNumber?_repr]
    rfl

/-! ## Lines -/

def headWords (table : WatchTable) : List (List Char) :=
  ["watch".toList, "cache:".toList, table.size.repr.toList, "active".toList, "entries".toList,
    "in".toList, table.capacity.repr.toList, "slots".toList]

theorem toList_headLine (table : WatchTable) :
    table.headLine.toList = joinWith ' ' table.headWords := by
  simp [headLine, headWords, joinWith, toString]

theorem toList_entryLine (slot : Nat) (entry : Entry) : (entryLine slot entry).toList =
    slot.repr.toList ++ ' ' :: (entry.id.raw.repr.toList ++ ' ' :: ' ' ::
      entry.path.display.toList) := by
  simp [entryLine, WatchId.text, toString]

theorem toList_display (htext : entry.path.bytes = Utf8.encode text) :
    entry.path.display.toList = text := by
  rw [Path.display, Bytes.display, htext, Utf8.display_encode, String.toList_ofList]

theorem notMem_entryLine (hdigit : c.isDigit = false) (hsign : c ≠ '-') (hspace : c ≠ ' ')
    (hpath : c ∉ entry.path.display.toList) : c ∉ (entryLine slot entry).toList := by
  simp only [toList_entryLine, List.mem_append, List.mem_cons, not_or]
  exact ⟨notMem_repr_nat hdigit slot, hspace, notMem_repr_int hdigit hsign _, hspace, hspace, hpath⟩

theorem readHeadLine?_headLine (table : WatchTable) :
    readHeadLine? table.headLine = some (table.size, table.capacity) := by
  have hwords : splitAtEach ' ' table.headLine.toList = table.headWords := by
    rw [toList_headLine]
    refine splitAtEach_joinWith ' ' (List.cons_ne_nil _ _) ?_
    simp [headWords, notMem_toDigits]
  rw [readHeadLine?, hwords, headWords]
  simp only [readNumber?_repr]
  rfl

/-- What a line for an entry says is the entry, as long as its path is text. -/
theorem readEntryLine?_entryLine (htext : entry.path.bytes = Utf8.encode text) :
    readEntryLine? (entryLine slot entry) = some (slot, entry) := by
  have hwords : splitAtEach ' ' (entryLine slot entry).toList =
      slot.repr.toList :: entry.id.raw.repr.toList :: [] :: splitAtEach ' ' text := by
    rw [toList_entryLine, splitAtEach_append_cons ' ' (notMem_repr_nat rfl slot),
      splitAtEach_append_cons ' ' (notMem_repr_int rfl (by decide) _), splitAtEach, if_pos rfl,
      toList_display htext]
  rw [readEntryLine?, hwords]
  simp only [readNumber?_repr, readInteger?_repr, joinWith_splitAtEach, ← htext]
  rfl

/-! ## Listings -/

theorem isOneLine_headLine (table : WatchTable) :
    '\n' ∉ table.headLine.toList ∧ '\r' ∉ table.headLine.toList := by
  simp [toList_headLine, headWords, joinWith, notMem_toDigits]

theorem isOneLine_entryLine (h : entry.path.IsOneLine) (slot : Nat) :
    '\n' ∉ (entryLine slot entry).toList ∧ '\r' ∉ (entryLine slot entry).toList := by
  obtain ⟨text, htext, hfeed, hreturn⟩ := h
  rw [← toList_display htext] at hfeed hreturn
  exact ⟨notMem_entryLine rfl (by decide) (by decide) hfeed,
    notMem_entryLine rfl (by decide) (by decide) hreturn⟩

/-- The lines that a listing is put together from. -/
def listedLines (table : WatchTable) : List String :=
  table.headLine :: table.active.map fun (slot, entry) => entryLine slot entry

theorem toList_listing (table : WatchTable) :
    table.listing.toList = (table.listedLines.map String.toList).flatMap (· ++ ['\n']) := by
  have hended (line : String) : (line ++ "\n").toList = line.toList ++ ['\n'] :=
    String.toList_append
  rw [listing, String.toList_join, List.flatMap_map, List.flatMap_map, listedLines]
  simp only [hended]

/-- As long as every path is on one line, a reader finds the lines that the listing is put together
from. -/
theorem listingLines_eq (hpaths : ∀ entry ∈ table.entries, entry.path.IsOneLine) :
    table.listingLines = table.listedLines := by
  have hlines : ∀ line ∈ table.listedLines, '\n' ∉ line.toList ∧ '\r' ∉ line.toList := by
    intro line hline
    rcases List.mem_cons.mp hline with rfl | hline
    · exact table.isOneLine_headLine
    · obtain ⟨⟨slot, entry⟩, hentry, rfl⟩ := List.mem_map.mp hline
      exact isOneLine_entryLine (hpaths entry (mem_entries_of_get? (mem_active_iff.mp hentry))) slot
  rw [listingLines, toList_listing, textLines, linesBy_flatMap (List.forall_mem_map.mpr hlines),
    List.map_map]
  simp

theorem mapM_readEntryLine? (hpaths : ∀ entry ∈ table.entries, entry.path.IsOneLine) :
    table.listedLines.tail.mapM readEntryLine? = some table.active := by
  have hread : ∀ item ∈ table.active, readEntryLine? (entryLine item.1 item.2) = some item := by
    rintro ⟨slot, entry⟩ hitem
    obtain ⟨text, htext, -⟩ := hpaths entry (mem_entries_of_get? (mem_active_iff.mp hitem))
    exact readEntryLine?_entryLine htext
  rw [listedLines, List.tail_cons]
  generalize table.active = items at hread
  induction items with
  | nil => rfl
  | cons item items ih =>
    rw [List.forall_mem_cons] at hread
    rw [List.map_cons, List.mapM_cons, hread.1, ih hread.2]
    rfl

/-- A listing has an ended line for each entry behind one with the numbers of entries and slots, and
the lines behind it say which entries there are, in which slots; so no other entries have this
listing. As the last that is heard of a table it is logged line by line as errors, which no mask
keeps back. -/
theorem listing_loses_nothing (table : WatchTable)
    (hpaths : ∀ entry ∈ table.entries, entry.path.IsOneLine) :
    table.listing = .join (table.listingLines.map (· ++ "\n")) ∧
    table.listingLines.length = table.size + 1 ∧
    table.listingLines.head?.bind readHeadLine? = some (table.size, table.capacity) ∧
    (table.listingLines.tail.mapM readEntryLine? = some table.active ∧
      (table.active.map (·.1)).Pairwise (· < ·)) ∧
    (∀ other : WatchTable, (∀ entry ∈ other.entries, entry.path.IsOneLine) →
      other.listing = table.listing → other.active = table.active) ∧
    Alarm.listingLines true table = table.listingLines.map Log.Line.error ∧
    ∀ mask, Log.written mask (Alarm.listingLines true table) =
      table.listingLines.map ("ERROR " ++ ·) := by
  have hlines := listingLines_eq hpaths
  have hread : table.listingLines.tail.mapM readEntryLine? = some table.active := by
    rw [hlines, mapM_readEntryLine? hpaths]
  refine ⟨by rw [hlines]; rfl, ?_, ?_, ⟨hread, table.pairwise_active⟩, fun other hother heq => ?_,
    rfl,
    fun mask => ?_⟩
  · rw [hlines, listedLines, List.length_cons, List.length_map, size]
  · rw [hlines, listedLines, List.head?_cons, Option.bind_some, readHeadLine?_headLine]
  · have hsame : other.listingLines = table.listingLines := by rw [listingLines, heq, listingLines]
    rw [← hsame, listingLines_eq hother, mapM_readEntryLine? hother] at hread
    exact Option.some.inj hread
  · have hvisible : ∀ line ∈ Alarm.listingLines true table, line.isVisible mask = true := by
      intro line hline
      obtain ⟨text, -, rfl⟩ := List.mem_map.mp hline
      exact Log.isVisible_of_isAlwaysOn mask rfl
    rw [Log.written, List.filter_eq_self.mpr hvisible, Alarm.listingLines, List.map_map]
    rfl

/-- A path of digits and spaces between free slots, and the same entries in a table that grew in
smaller steps. -/
theorem listing_loses_nothing_of_spaces :
    let slots := [some ⟨⟨1⟩, .ofString "/r"⟩, none, some ⟨⟨3⟩, .ofString "/7 8  é"⟩, none]
    let table : WatchTable := ⟨slots, 4, 1, by decide⟩
    let other : WatchTable := ⟨slots, 2, 2, by decide⟩
    (∀ entry ∈ table.entries, entry.path.IsOneLine) ∧
    (∀ entry ∈ other.entries, entry.path.IsOneLine) ∧
      other.listing = table.listing ∧ other.active = table.active ∧
      table.listingLines.tail.mapM readEntryLine? =
        some [(0, ⟨⟨1⟩, .ofString "/r"⟩), (2, ⟨⟨3⟩, .ofString "/7 8  é"⟩)] := by
  intro slots table other
  have hpaths : ∀ entry ∈ table.entries, entry.path.IsOneLine := by
    intro entry hentry
    obtain rfl | rfl : entry = ⟨⟨1⟩, .ofString "/r"⟩ ∨ entry = ⟨⟨3⟩, .ofString "/7 8  é"⟩ := by
      simpa [entries, table, slots] using hentry
    · exact ⟨_, rfl, by decide, by decide⟩
    · exact ⟨_, rfl, by decide, by decide⟩
  have hother : ∀ entry ∈ other.entries, entry.path.IsOneLine := hpaths
  have heq : other.listing = table.listing := rfl
  obtain ⟨-, -, -, ⟨hread, -⟩, hdetermined, -⟩ := listing_loses_nothing table hpaths
  exact ⟨hpaths, hother, heq, hdetermined other hother heq, hread⟩

end WatchTable

end TreeWatch
