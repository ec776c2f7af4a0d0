/-!
# Text without terminal controls

A text that is put into a message must not move the cursor or change colours. What a terminal would
act on is left out: control characters, and sequences that an escape character opens. Blanks stay.
-/

namespace TreeWatch

namespace Terminal

inductive State where
  /-- In what is shown. -/
  | shown
  /-- After an escape character. -/
  | escape
  /-- In the parameters of a control sequence. -/
  | sequence
  /-- In a string that is meant for the terminal alone. -/
  | string
  deriving DecidableEq, Repr

/-- A control character that separates words or lines. -/
def isSeparator (c : Char) : Bool := c == '\t' || c == '\n' || c == '\x0c' || c == '\r'

def isControl (c : Char) : Bool := c < ' ' || c == '\x7f'

/-- What a character after an escape character, or after the marks between, leads to. -/
def afterEscape (c : Char) : State :=
  if c = '[' then .sequence
  else if c = ']' ∨ c = 'P' ∨ c = 'X' ∨ c = '^' ∨ c = '_' then .string
  else if ' ' ≤ c ∧ c ≤ '/' then .escape
  else .shown

def visible : State → List Char → List Char
  | _, [] => []
  | state, c :: rest =>
    if c = '\x1b' then visible .escape rest
    else if c = '\x18' ∨ c = '\x1a' then visible .shown rest
    else
      match state with
      | .shown =>
        if isControl c && !isSeparator c then visible .shown rest else c :: visible .shown rest
      | .string => visible (if c = '\x07' then .shown else .string) rest
      | .escape =>
        if isSeparator c then c :: visible .shown rest
        else if isControl c then visible .escape rest
        else visible (afterEscape c) rest
      | .sequence =>
        if isSeparator c then c :: visible .shown rest
        else if isControl c ∨ c < '@' then visible .sequence rest
        else visible .shown rest

end Terminal

end TreeWatch
