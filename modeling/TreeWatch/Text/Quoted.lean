import TreeWatch.Text.Utf8
import TreeWatch.Text.Printable

/-!
# Quoted text

Messages quote what was read, so that blanks and invisible characters can be told apart: double
quotes around it, the usual short escapes, and the code point in braces for anything that does not
show.
-/

namespace TreeWatch

def hexDigits (n : Nat) : List Char := Nat.toDigits 16 n

def escapeChar (c : Char) : List Char :=
  match c with
  | '\x00' => ['\\', '0']
  | '\t' => ['\\', 't']
  | '\r' => ['\\', 'r']
  | '\n' => ['\\', 'n']
  | '\\' => ['\\', '\\']
  | '\x22' => ['\\', '\x22']
  | c => if isPlain c then [c] else ['\\', 'u', '\x7b'] ++ hexDigits c.toNat ++ ['\x7d']

def quote (text : List Char) : String := .ofList ('\x22' :: text.flatMap escapeChar ++ ['\x22'])

/-- A stray byte as two hexadecimal digits in upper case. -/
def escapeByte (b : UInt8) : List Char :=
  let digits := (hexDigits b.toNat).map Char.toUpper
  ['\\', 'x'] ++ List.replicate (2 - digits.length) '0' ++ digits

/-- A name in double quotes. A name need not be text, so its stray bytes are escaped one by one; an
apostrophe is escaped as well. -/
def quoteName (name : Bytes) : String :=
  let escapePiece : Utf8.Piece → List Char
    | .char '\x27' => ['\\', '\x27']
    | .char c => escapeChar c
    | .stray bytes => bytes.flatMap escapeByte
  .ofList ('\x22' :: (Utf8.pieces name).flatMap escapePiece ++ ['\x22'])

end TreeWatch
