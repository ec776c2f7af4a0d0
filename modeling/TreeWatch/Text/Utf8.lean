/-!
# Bytes and the characters in them

File names, arguments and file contents are byte strings, which need not be text. `pieces` cuts a
byte string into encoded characters and maximal runs that begin no character; strict reading
(`decode?`) and showing (`display`) are both read off that one cutting, so they agree on where the
characters are.
-/

namespace TreeWatch

abbrev Bytes := List UInt8

namespace Utf8

/-- The encoded form of a character: one to four bytes, the fewest that hold it. -/
def encodeChar (c : Char) : Bytes :=
  let n := c.toNat
  if n < 0x80 then [.ofNat n]
  else if n < 0x800 then [.ofNat (0xC0 + n / 0x40), .ofNat (0x80 + n % 0x40)]
  else if n < 0x10000 then
    [.ofNat (0xE0 + n / 0x1000), .ofNat (0x80 + n / 0x40 % 0x40), .ofNat (0x80 + n % 0x40)]
  else
    [.ofNat (0xF0 + n / 0x40000), .ofNat (0x80 + n / 0x1000 % 0x40),
      .ofNat (0x80 + n / 0x40 % 0x40), .ofNat (0x80 + n % 0x40)]

def encode (text : List Char) : Bytes := text.flatMap encodeChar

/-- What a leading byte announces: its own share of the value, how many bytes follow, and the range
of the first of them, which is narrowed so that no character has a second, longer form and no
surrogate has one. -/
structure Lead where
  share : Nat
  followers : Nat
  low : UInt8
  high : UInt8

def lead? (b : UInt8) : Option Lead :=
  if b < 0x80 then some ⟨b.toNat, 0, 0x80, 0xBF⟩
  else if b < 0xC2 then none
  else if b < 0xE0 then some ⟨b.toNat - 0xC0, 1, 0x80, 0xBF⟩
  else if b = 0xE0 then some ⟨0, 2, 0xA0, 0xBF⟩
  else if b = 0xED then some ⟨0xD, 2, 0x80, 0x9F⟩
  else if b < 0xF0 then some ⟨b.toNat - 0xE0, 2, 0x80, 0xBF⟩
  else if b = 0xF0 then some ⟨0, 3, 0x90, 0xBF⟩
  else if b < 0xF4 then some ⟨b.toNat - 0xF0, 3, 0x80, 0xBF⟩
  else if b = 0xF4 then some ⟨4, 3, 0x80, 0x8F⟩
  else none

/-- The announced followers that are really there: the first lies between `low` and `high`, each
later one is any continuation byte. -/
def followers : (count : Nat) → (low high : UInt8) → Bytes → Bytes
  | 0, _, _, _ => []
  | _ + 1, _, _, [] => []
  | n + 1, low, high, b :: rest =>
    if low ≤ b ∧ b ≤ high then b :: followers n 0x80 0xBF rest else []

/-- A character in its encoded form, or the longest start of one that breaks off. -/
inductive Piece where
  | char (c : Char)
  | stray (bytes : Bytes)
  deriving DecidableEq, Repr

/-- The piece at the head of `b :: rest`, and how much of `rest` it takes. -/
def headPiece (b : UInt8) (rest : Bytes) : Piece × Nat :=
  match lead? b with
  | none => (.stray [b], 0)
  | some lead =>
    let tail := followers lead.followers lead.low lead.high rest
    if tail.length = lead.followers then
      (.char (.ofNat (tail.foldl (fun value b => value * 0x40 + (b.toNat - 0x80)) lead.share)),
        tail.length)
    else (.stray (b :: tail), tail.length)

def pieces : Bytes → List Piece
  | [] => []
  | b :: rest =>
    let head := headPiece b rest
    head.1 :: pieces (rest.drop head.2)
termination_by bytes => bytes.length
decreasing_by
  simp only [List.length_drop, List.length_cons]
  omega

def Piece.char? : Piece → Option Char
  | .char c => some c
  | .stray _ => none

/-- The text that the bytes encode, if they encode one. -/
def decode? (bytes : Bytes) : Option (List Char) := (pieces bytes).mapM Piece.char?

/-- The bytes as text for a reader: each stray run shows as one replacement character. -/
def display (bytes : Bytes) : List Char :=
  (pieces bytes).map fun piece => piece.char?.getD '\uFFFD'

end Utf8

def Bytes.ofString (text : String) : Bytes := Utf8.encode text.toList

def Bytes.toString? (bytes : Bytes) : Option String := (Utf8.decode? bytes).map String.ofList

def Bytes.display (bytes : Bytes) : String := .ofList (Utf8.display bytes)

end TreeWatch
