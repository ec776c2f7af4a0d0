import TreeWatch.Toml.Value

/-!
# TOML documents

A document is a row of statements. A pair gives a value to a key of the current table, and a header
makes another table the current one. `Toml.read?` gives the contents of a document, or nothing if it
breaks a rule of the format; what the document then means is for others to say.
-/

namespace TreeWatch

namespace Toml

inductive Statement where
  | pair (key : Key) (value : Contents)
  /-- A header in single brackets: the table with this key. -/
  | table (key : Key)
  /-- A header in double brackets: one more table with this key. -/
  | oneMore (key : Key)
  deriving DecidableEq, Repr

/-! ## Statements in a text -/

/-- Without the rest of a line, which holds nothing but blanks and perhaps a comment. -/
def restOfLine? (text : List Char) : Option (List Char) :=
  let rest :=
    match skipSpace text with
    | '#' :: rest => rest.dropWhile isShown
    | rest => rest
  if rest.isEmpty then some [] else lineEnd? rest

def statement : Reader Statement
  | '[' :: '[' :: rest => do
    let (key, rest) ← key rest
    let rest ← expect? [']', ']'] rest
    let rest ← restOfLine? rest
    some (.oneMore key, rest)
  | '[' :: rest => do
    let (key, rest) ← key rest
    let rest ← expect? [']'] rest
    let rest ← restOfLine? rest
    some (.table key, rest)
  | text => do
    let (key, rest) ← key text
    let rest ← expect? ['='] rest
    let (contents, rest) ← value (skipSpace rest)
    let rest ← restOfLine? rest
    some (.pair key contents, rest)

/-- Whether a statement starts here; otherwise the line is empty or holds a comment. -/
def startsStatement : List Char → Bool
  | [] | '#' :: _ | '\n' :: _ | '\r' :: _ => false
  | _ => true

/-- All statements of a text. Each line takes a character, so `fuel` lasts if it is more than the
length of the text. -/
def statementsWithin : (fuel : Nat) → List Char → Option (List Statement)
  | 0, _ => none
  | fuel + 1, text =>
    match skipSpace text with
    | [] => some []
    | text =>
      if startsStatement text then do
        let (first, rest) ← statement text
        let more ← statementsWithin fuel rest
        some (first :: more)
      else do
        let rest ← restOfLine? text
        statementsWithin fuel rest

/-- All statements of a text, which a byte order mark may open. -/
def statements? (text : List Char) : Option (List Statement) :=
  let text := (expect? ['\uFEFF'] text).getD text
  statementsWithin (text.length + 1) text

/-! ## The meaning of statements -/

/-- The contents so far, and where the current table stands. -/
structure Document where
  contents : Contents
  current : Place

namespace Document

/-- No statement yet: the table of the document is the current one. -/
def empty : Document := ⟨[([], .table .header)], []⟩

/-- The document after one more statement. A table has at most one header, and a header may not name
a value, a table that dotted keys made, or tables that have a header of the other kind. -/
def extend? (document : Document) : Statement → Option Document
  | .pair key value =>
    (document.contents.insert? document.current key value).map (⟨·, document.current⟩)
  | .table key => do
    let (contents, parent) ← document.contents.descend .passedByHeader key.path []
    let place := parent ++ [.key key.name]
    match contents.get? place with
    | none | some (.table .passedByHeader) => some ⟨contents.put place (.table .header), place⟩
    | some _ => none
  | .oneMore key => do
    let (contents, parent) ← document.contents.descend .passedByHeader key.path []
    let place := parent ++ [.key key.name]
    let count ←
      match contents.get? place with
      | none => some 0
      | some (.tables count) => some count
      | some _ => none
    let current := place ++ [.item count]
    some ⟨(contents.put place (.tables (count + 1))).put current (.table .header), current⟩

end Document

def read? (text : List Char) : Option Contents := do
  let statements ← statements? text
  let document ← statements.foldlM Document.extend? .empty
  some document.contents

end Toml

end TreeWatch
