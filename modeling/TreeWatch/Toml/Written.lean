import TreeWatch.Toml.Scalar

/-!
# Writing TOML

A string is written in the plainest of the four forms that needs no escapes for it, and with escapes
where every form needs them. A number is written only if a reader may take it.
-/

namespace TreeWatch

namespace Toml

structure StringForm where
  /-- Double quotes with escapes, or apostrophes without. -/
  escapes : Bool
  overLines : Bool
  deriving DecidableEq, Repr

/-- The longest run of `quote` in a text that follows `run` copies of it. -/
def longestRun (quote : Char) : (run : Nat) → List Char → Nat
  | run, [] => run
  | run, c :: rest =>
    if c = quote then longestRun quote (run + 1) rest else max run (longestRun quote 0 rest)

/-- A character that no form holds as itself. -/
def isControl (c : Char) : Bool := !isShown c && c ≠ '\n'

def StringForm.ofText (text : List Char) : StringForm :=
  let controls := text.any isControl
  let lines := text.contains '\n'
  let backslashes := text.contains '\\'
  let doubles := longestRun '\x22' 0 text
  let singles := longestRun '\x27' 0 text
  if !controls && !lines && !backslashes && doubles == 0 then ⟨true, false⟩
  else if !controls && !lines && singles == 0 then ⟨false, false⟩
  else if !controls && !backslashes && doubles ≤ 2 then ⟨true, true⟩
  else if !controls && singles ≤ 2 then ⟨false, true⟩
  else ⟨true, lines⟩

namespace StringForm

/-- The quote around a string and how many of it stand at either end. -/
def quotes (form : StringForm) : List Char :=
  List.replicate (if form.overLines then 3 else 1) (if form.escapes then '\x22' else '\x27')

/-- How many double quotes in a row may stand in the string as themselves. -/
def freeQuotes (form : StringForm) : Nat := if form.overLines then 2 else 0

end StringForm

def fourDigits (n : Nat) : List Char :=
  let digits := (Nat.toDigits 16 n).map Char.toUpper
  List.replicate (4 - digits.length) '0' ++ digits

/-- A character in a form with escapes. -/
def writtenChar (form : StringForm) (c : Char) : List Char :=
  match c with
  | '\x08' => ['\\', 'b']
  | '\t' => ['\\', 't']
  | '\n' => if form.overLines then ['\n'] else ['\\', 'n']
  | '\x0c' => ['\\', 'f']
  | '\r' => ['\\', 'r']
  | '\\' => ['\\', '\\']
  | c => if isControl c then '\\' :: 'u' :: fourDigits c.toNat else [c]

/-- A text in a form with escapes, after `run` double quotes that stand as themselves. -/
def writtenChars (form : StringForm) : (run : Nat) → List Char → List Char
  | _, [] => []
  | run, c :: rest =>
    if c = '\x22' then
      if run < form.freeQuotes then '\x22' :: writtenChars form (run + 1) rest
      else '\\' :: '\x22' :: writtenChars form 0 rest
    else writtenChar form c ++ writtenChars form 0 rest

/-- A string in a form. Over several lines a line end follows the opening, which readers take
away. -/
def writtenIn (form : StringForm) (text : List Char) : List Char :=
  let opening := if form.overLines && text.contains '\n' then ['\n'] else []
  form.quotes ++ opening ++ (if form.escapes then writtenChars form 0 text else text) ++ form.quotes

def writtenString (text : List Char) : List Char := writtenIn (.ofText text) text

def writtenBoolean (b : Bool) : List Char := (if b then "true" else "false").toList

def writtenNumber? (n : Nat) : Option (List Char) :=
  if (n : Int) < integerBounds.2 then some (Nat.toDigits 10 n) else none

def writtenPair (name : String) (value : List Char) : List Char :=
  name.toList ++ [' ', '=', ' '] ++ value ++ ['\n']

end Toml

end TreeWatch
