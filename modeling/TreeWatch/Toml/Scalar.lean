import TreeWatch.Text.Numeral
import TreeWatch.Toml.Contents

/-!
# TOML scalars

Strings in their four forms, numbers, truth values, dates and times. Each reader takes a scalar from
the front of a text and gives the rest, or nothing if none stands there.
-/

namespace TreeWatch

namespace Toml

/-- Takes something from the front of a text. -/
abbrev Reader (α : Type) := List Char → Option (α × List Char)

/-- A blank that separates without ending a line. -/
def isSpace (c : Char) : Bool := c == ' ' || c == '\t'

/-- A character that may stand in a comment or a string as itself, if the form of the string lets
it. -/
def isShown (c : Char) : Bool := c == '\t' || (' ' ≤ c && c ≠ '\x7f')

def skipSpace (text : List Char) : List Char := text.dropWhile isSpace

/-- Without the line end at the front, if there is one. -/
def lineEnd? : List Char → Option (List Char)
  | '\n' :: rest => some rest
  | '\r' :: '\n' :: rest => some rest
  | _ => none

def expect? (word text : List Char) : Option (List Char) :=
  if word.isPrefixOf text then some (text.drop word.length) else none

/-! ## Strings -/

/-- The character with a code point given by digits in base sixteen. -/
def codePoint? (digits : List Char) : Option Char := do
  let n ← (Numeral.readDigits 16 0x110000 digits 0).toOption
  if h : n.isValidChar then some (Char.ofNatAux n h) else none

def shortEscape? : Char → Option Char
  | 'b' => some '\x08'
  | 't' => some '\t'
  | 'n' => some '\n'
  | 'f' => some '\x0c'
  | 'r' => some '\r'
  | '\x22' => some '\x22'
  | '\\' => some '\\'
  | _ => none

/-- An escape by a code point of `count` digits, after its letter. -/
def codePointEscape (count : Nat) (text : List Char) : Option (Char × List Char) :=
  if text.length < count then none
  else (codePoint? (text.take count)).map (·, text.drop count)

def escape : Reader Char
  | 'u' :: rest => codePointEscape 4 rest
  | 'U' :: rest => codePointEscape 8 rest
  | c :: rest => (shortEscape? c).map (·, rest)
  | [] => none

theorem length_codePointEscape_le {count : Nat} {text rest : List Char} {c : Char}
    (h : codePointEscape count text = some (c, rest)) : rest.length ≤ text.length := by
  unfold codePointEscape at h
  split at h
  · cases h
  · obtain ⟨d, _, hd⟩ := Option.map_eq_some_iff.1 h
    rw [← (Prod.mk.inj hd).2, List.length_drop]
    omega

theorem length_escape_lt {text rest : List Char} {c : Char} (h : escape text = some (c, rest)) :
    rest.length < text.length := by
  unfold escape at h
  split at h
  · exact Nat.lt_succ_of_le (length_codePointEscape_le h)
  · exact Nat.lt_succ_of_le (length_codePointEscape_le h)
  · obtain ⟨d, _, hd⟩ := Option.map_eq_some_iff.1 h
    rw [← (Prod.mk.inj hd).2]
    exact Nat.lt_succ_self _
  · cases h

/-- The rest of a string on one line with escapes, after its opening quote. -/
def basicRest (text : List Char) : Option (List Char × List Char) :=
  match text with
  | [] => none
  | '\x22' :: rest => some ([], rest)
  | '\\' :: rest =>
    match _h : escape rest with
    | none => none
    | some (c, rest) => (basicRest rest).map fun (more, rest) => (c :: more, rest)
  | c :: rest =>
    if isShown c then (basicRest rest).map fun (more, rest) => (c :: more, rest) else none
termination_by text.length
decreasing_by
  · have := length_escape_lt _h
    simp
    omega
  · simp

/-- The rest of a string on one line without escapes, after its opening quote. -/
def literalRest : List Char → Option (List Char × List Char)
  | [] => none
  | '\x27' :: rest => some ([], rest)
  | c :: rest =>
    if isShown c then (literalRest rest).map fun (more, rest) => (c :: more, rest) else none

/-- How many copies of `quote` stand at the front. -/
def quoteRun (quote : Char) (text : List Char) : Nat := (text.takeWhile (· == quote)).length

/-- How a string over several lines goes on at a run of quotes: up to two belong to it, and with
three or more it ends, the last three aside. Gives how many belong to it and whether it ends. -/
def quotesHeld (count : Nat) : Nat × Bool :=
  if count < 3 then (count, false) else (min (count - 3) 2, true)

theorem length_dropWhile_le {α : Type} (p : α → Bool) (xs : List α) :
    (xs.dropWhile p).length ≤ xs.length := (List.dropWhile_suffix p).length_le

/-- The rest of a string over several lines with escapes. A backslash at the end of a line takes the
line end and all blanks after it away; `joins` says that such blanks are being skipped. -/
def basicLines (joins : Bool) (text : List Char) : Option (List Char × List Char) :=
  match text with
  | [] => none
  | '\n' :: rest =>
    if joins then basicLines true rest
    else (basicLines false rest).map fun (more, rest) => ('\n' :: more, rest)
  | '\r' :: '\n' :: rest =>
    if joins then basicLines true rest
    else (basicLines false rest).map fun (more, rest) => ('\n' :: more, rest)
  | '\\' :: rest =>
    match lineEnd? (skipSpace rest) with
    | some _ => basicLines true (skipSpace rest)
    | none =>
      match _h : escape rest with
      | none => none
      | some (c, rest) => (basicLines false rest).map fun (more, rest) => (c :: more, rest)
  | '\x22' :: rest =>
    let (held, ends) := quotesHeld (quoteRun '\x22' ('\x22' :: rest))
    if ends then some (List.replicate held '\x22', ('\x22' :: rest).drop (held + 3))
    else (basicLines false rest).map fun (more, rest) => ('\x22' :: more, rest)
  | c :: rest =>
    if joins && isSpace c then basicLines true rest
    else if isShown c then (basicLines false rest).map fun (more, rest) => (c :: more, rest)
    else none
termination_by text.length
decreasing_by
  all_goals simp only [List.length_cons]
  all_goals first
    | omega
    | (have shorter := length_escape_lt _h; omega)
    | (have shorter := length_dropWhile_le isSpace rest; unfold skipSpace; omega)

/-- The rest of a string over several lines without escapes. -/
def literalLines : List Char → Option (List Char × List Char)
  | [] => none
  | '\n' :: rest => (literalLines rest).map fun (more, rest) => ('\n' :: more, rest)
  | '\r' :: '\n' :: rest => (literalLines rest).map fun (more, rest) => ('\n' :: more, rest)
  | '\x27' :: rest =>
    let (held, ends) := quotesHeld (quoteRun '\x27' ('\x27' :: rest))
    if ends then some (List.replicate held '\x27', ('\x27' :: rest).drop (held + 3))
    else (literalLines rest).map fun (more, rest) => ('\x27' :: more, rest)
  | c :: rest =>
    if isShown c then (literalLines rest).map fun (more, rest) => (c :: more, rest) else none

/-- Without the line end that may follow the opening of a string over several lines. -/
def dropFirstLineEnd (text : List Char) : List Char := (lineEnd? text).getD text

def lineString : Reader (List Char)
  | '\x22' :: rest => basicRest rest
  | '\x27' :: rest => literalRest rest
  | _ => none

def string : Reader (List Char)
  | '\x22' :: '\x22' :: '\x22' :: rest => basicLines false (dropFirstLineEnd rest)
  | '\x27' :: '\x27' :: '\x27' :: rest => literalLines (dropFirstLineEnd rest)
  | text => lineString text

/-! ## Numbers -/

def isDigit (base : Nat) (c : Char) : Bool := (Numeral.digit? base c).isSome

/-- Digits after a first one, with single underscores between them. -/
def moreDigits (base : Nat) : List Char → List Char × List Char
  | '_' :: c :: rest =>
    if isDigit base c then
      let (more, rest) := moreDigits base rest
      (c :: more, rest)
    else ([], '_' :: c :: rest)
  | c :: rest =>
    if isDigit base c then
      let (more, rest) := moreDigits base rest
      (c :: more, rest)
    else ([], c :: rest)
  | [] => ([], [])

/-- Digits with single underscores between them, without the underscores. -/
def digits (base : Nat) : Reader (List Char)
  | c :: rest =>
    if isDigit base c then
      let (more, rest) := moreDigits base rest
      some (c :: more, rest)
    else none
  | [] => none

def valueOf (base : Nat) (digits : List Char) : Nat :=
  digits.foldl (fun value c => value * base + (Numeral.digit? base c).getD 0) 0

/-- The digits of a decimal integer: no zero stands before others. -/
def wholeDigits : Reader (List Char)
  | '0' :: rest => some (['0'], rest)
  | text => digits 10 text

/-- A sign, if there is one: whether it is a minus. -/
def sign : List Char → Bool × List Char
  | '-' :: rest => (true, rest)
  | '+' :: rest => (false, rest)
  | text => (false, text)

/-- The least and the first too large integer that a document may hold. -/
def integerBounds : Int × Int := (-Int.pow 2 63, Int.pow 2 63)

def boundedInteger (value : Int) : Option Node :=
  if integerBounds.1 ≤ value ∧ value < integerBounds.2 then some (.integer value) else none

/-- An integer in a base with a mark for it. -/
def markedInteger (base : Nat) (text : List Char) : Option (Node × List Char) := do
  let (ds, rest) ← digits base text
  let node ← boundedInteger (valueOf base ds)
  some (node, rest)

def integer : Reader Node
  | '0' :: 'x' :: rest => markedInteger 16 rest
  | '0' :: 'o' :: rest => markedInteger 8 rest
  | '0' :: 'b' :: rest => markedInteger 2 rest
  | text => do
    let (negative, text) := sign text
    let (ds, rest) ← wholeDigits text
    let value : Int := valueOf 10 ds
    let node ← boundedInteger (if negative then -value else value)
    some (node, rest)

/-- Whether `digits` times ten to the power `exponent` is beyond the floats of 64 bits: it rounds to
infinity from half a unit above the largest of them. -/
def isBeyondFloats (digits : List Char) (exponent : Int) : Bool :=
  let mantissa := valueOf 10 digits
  let length : Int := (Nat.toDigits 10 mantissa).length
  if mantissa = 0 then false
  else if 310 < exponent + length then true
  else if exponent + length < 300 then false
  else
    let bound := Nat.pow 2 1024 - Nat.pow 2 970
    if 0 ≤ exponent then bound ≤ mantissa * Nat.pow 10 exponent.toNat
    else bound * Nat.pow 10 (-exponent).toNat ≤ mantissa

def exponentRest (text : List Char) : Option (Int × List Char) := do
  let (negative, text) := sign text
  let (ds, rest) ← digits 10 text
  let value : Int := valueOf 10 ds
  some (if negative then -value else value, rest)

/-- The exponent of a float; zero if there is none. -/
def exponent : Reader Int
  | 'e' :: rest | 'E' :: rest => exponentRest rest
  | text => some (0, text)

/-- A float with a fraction, an exponent or both. A positive one too large to be held is refused. -/
def decimalFloat (text : List Char) : Option (Node × List Char) := do
  let (negative, text) := sign text
  let (whole, text) ← wholeDigits text
  let (fraction, text) ← match text with
    | '.' :: rest => digits 10 rest
    | 'e' :: _ | 'E' :: _ => some ([], text)
    | _ => none
  let (power, rest) ← exponent text
  if !negative && isBeyondFloats (whole ++ fraction) (power - fraction.length) then none
  else some (.float, rest)

/-- An infinity or a value that is no number. -/
def specialFloat (text : List Char) : Option (Node × List Char) := do
  let (_, text) := sign text
  let rest ← (expect? ['i', 'n', 'f'] text).or (expect? ['n', 'a', 'n'] text)
  some (.float, rest)

/-! ## Dates and times -/

def fixedDigits (count : Nat) (text : List Char) : Option (Nat × List Char) :=
  let ds := text.take count
  if ds.length = count ∧ ds.all (isDigit 10) then some (valueOf 10 ds, text.drop count) else none

def isLeapYear (year : Nat) : Bool := year % 4 == 0 && (year % 100 != 0 || year % 400 == 0)

def daysOfMonth (year month : Nat) : Nat :=
  if month = 2 then if isLeapYear year then 29 else 28
  else if month = 4 ∨ month = 6 ∨ month = 9 ∨ month = 11 then 30
  else 31

/-- A day of the calendar; gives the rest. -/
def date? (text : List Char) : Option (List Char) := do
  let (year, text) ← fixedDigits 4 text
  let text ← expect? ['-'] text
  let (month, text) ← fixedDigits 2 text
  let text ← expect? ['-'] text
  let (day, text) ← fixedDigits 2 text
  if 1 ≤ month ∧ month ≤ 12 ∧ 1 ≤ day ∧ day ≤ daysOfMonth year month then some text else none

/-- An hour and a minute; gives the rest. -/
def hourAndMinute? (text : List Char) : Option (List Char) := do
  let (hour, text) ← fixedDigits 2 text
  let text ← expect? [':'] text
  let (minute, text) ← fixedDigits 2 text
  if hour ≤ 23 ∧ minute ≤ 59 then some text else none

/-- A time of the day to the second or finer; gives the rest. A leap second is a second. -/
def time? (text : List Char) : Option (List Char) := do
  let text ← hourAndMinute? text
  let text ← expect? [':'] text
  let (second, text) ← fixedDigits 2 text
  if 60 < second then none
  else match text with
    | '.' :: c :: rest => if isDigit 10 c then some (rest.dropWhile (isDigit 10)) else some text
    | _ => some text

/-- A distance from universal time, if there is one; gives the rest. -/
def dropOffset (text : List Char) : List Char :=
  match text with
  | 'Z' :: rest | 'z' :: rest => rest
  | '+' :: rest | '-' :: rest => (hourAndMinute? rest).getD text
  | _ => text

/-- A date, a time, or both. -/
def dateTime (text : List Char) : Option (Node × List Char) :=
  match date? text with
  | none => (time? text).map (.dateTime, ·)
  | some rest =>
    match rest with
    | 'T' :: more | 't' :: more | ' ' :: more =>
      match time? more with
      | some more => some (.dateTime, dropOffset more)
      | none => some (.dateTime, rest)
    | _ => some (.dateTime, rest)

def plainScalar (text : List Char) : Option (Node × List Char) :=
  match expect? ['t', 'r', 'u', 'e'] text, expect? ['f', 'a', 'l', 's', 'e'] text with
  | some rest, _ => some (.boolean true, rest)
  | _, some rest => some (.boolean false, rest)
  | none, none =>
    (dateTime text).or <| (decimalFloat text).or <| (specialFloat text).or <| integer text

def scalar : Reader Node
  | '\x22' :: rest => (string ('\x22' :: rest)).map fun (chars, rest) => (.text chars, rest)
  | '\x27' :: rest => (string ('\x27' :: rest)).map fun (chars, rest) => (.text chars, rest)
  | text => plainScalar text

end Toml

end TreeWatch
