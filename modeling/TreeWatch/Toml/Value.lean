import TreeWatch.Toml.Scalar

/-!
# TOML keys and values

A key is a row of names with dots between them. A value is a scalar, an array or an inline table;
how deep the containers may stand in each other is limited, and so is the number of names in a key.
-/

namespace TreeWatch

namespace Toml

/-! ## Keys -/

/-- A character of a name that stands without quotes. -/
def isBare (c : Char) : Bool := c.isAlphanum || c == '_' || c == '-'

def name (text : List Char) : Option (List Char × List Char) :=
  match text.takeWhile isBare with
  | [] => lineString text
  | chars => some (chars, text.dropWhile isBare)

/-- The most names that a key may have, and the most containers that may stand in each other. -/
def nestingLimit : Nat := 79

/-- A key of at most `limit` names, and the blanks around them. -/
def keyWithin : (limit : Nat) → Reader Key
  | 0, _ => none
  | limit + 1, text => do
    let (first, text) ← name (skipSpace text)
    match skipSpace text with
    | '.' :: rest => do
      let (key, rest) ← keyWithin limit rest
      some (⟨first :: key.path, key.name⟩, rest)
    | rest => some (⟨[], first⟩, rest)

def key : Reader Key := keyWithin nestingLimit

/-! ## Values -/

/-- Blanks, line ends and comments, as they may stand between the values of an array. Inside a
comment everything that can be shown is skipped, up to the line end. -/
def skipBlank (inComment : Bool) : List Char → List Char
  | [] => []
  | '\n' :: rest => skipBlank false rest
  | '\r' :: '\n' :: rest => skipBlank false rest
  | '#' :: rest => skipBlank true rest
  | c :: rest =>
    if isSpace c || (inComment && isShown c) then skipBlank inComment rest else c :: rest

/-- The values of an array from position `index` on, and the closing bracket. A comma may follow the
last value. Each value takes a character, so `fuel` lasts if it is more than the length of the
text. -/
def items (value : Reader Contents) : (fuel index : Nat) → Reader Contents
  | 0, _, _ => none
  | fuel + 1, index, text =>
    match skipBlank false text with
    | ']' :: rest => some ([], rest)
    | text => do
      let (first, text) ← value text
      let first := first.within [.item index]
      match skipBlank false text with
      | ',' :: rest => do
        let (more, rest) ← items value fuel (index + 1) rest
        some (first ++ more, rest)
      | ']' :: rest => some (first, rest)
      | _ => none

/-- The pairs of an inline table after those in `table`, and the closing brace. No comma follows the
last pair. Each pair takes a character, so `fuel` lasts if it is more than the length of the
text. -/
def pairs (value : Reader Contents) : (fuel : Nat) → (table : Contents) → Reader Contents
  | 0, _, _ => none
  | fuel + 1, table, text => do
    let (key, text) ← key text
    let text ← expect? ['='] text
    let (node, text) ← value (skipSpace text)
    let table ← table.insert? [] key node
    match skipSpace text with
    | ',' :: rest => pairs value fuel table rest
    | '\x7d' :: rest => some (table, rest)
    | _ => none

/-- An inline table, after its opening brace. -/
def inlineTable (value : Reader Contents) (text : List Char) : Option (Contents × List Char) :=
  let empty : Contents := [([], .inlineTable)]
  match skipSpace text with
  | '\x7d' :: rest => some (empty, rest)
  | text => pairs value (text.length + 1) empty text

/-- A value in which at most `depth` containers stand in each other. -/
def valueWithin : (depth : Nat) → Reader Contents
  | depth + 1, '[' :: rest => do
    let (contents, rest) ← items (valueWithin depth) (rest.length + 1) 0 rest
    some (([], .array) :: contents, rest)
  | depth + 1, '\x7b' :: rest => inlineTable (valueWithin depth) rest
  | _, text => (scalar text).map fun (node, rest) => ([([], node)], rest)

def value : Reader Contents := valueWithin nestingLimit

end Toml

end TreeWatch
