import EntityQuery.Toml.Scalar
import EntityQuery.Toml.Table

/-!
Reading TOML documents.

* `key` -- a key, with points between its parts;
* `value` -- a value; arrays and tables in braces may be nested to a limit;
* `Line`, `Section` -- the lines of a document, and the entries under each header;
* `read?` -- the entries of a document.
-/
namespace EntityQuery.Toml

open Scan

/-! ## 1. Keys and values -/

/-- Keys have fewer parts than this, and values are nested less deep than this. -/
def limit : Nat := 80

/-- Characters of keys without quotes. -/
def isBare (c : Char) : Bool := c.isAlphanum || c = '_' || c = '-'

/-- One part of a key. -/
def keyPart : Scan String := do
  blanks
  let part ← basicString <|> literalString <|> String.ofList <$> bareKey
  blanks
  return part
where
  /-- A key without quotes. -/
  bareKey : Scan (List Char) := do
    let first ← one isBare
    return first :: (← run isBare)

/-- The parts of a key. -/
def key : Scan (List String) := do
  let parts ← separated₁ (char '.') keyPart
  if parts.length < limit then return parts else failure

/-- An array of values over any number of lines, with or without a comma at the end. -/
def array (item : Scan Value) : Scan Value := do
  char '['
  let items ← separated (char ',') (layout *> item <* layout)
  unless items.isEmpty do discard (optional (char ','))
  layout
  char ']'
  return .array items

/-- A key and its value. -/
def keyValue (item : Scan Value) : Scan (List String × Value) := do
  let k ← key
  char '='
  blanks
  let v ← item
  return (k, v)

/-- A table in braces. -/
def inlineTable (item : Scan Value) : Scan Value := do
  char '\x7b'
  let entries ← separated (char ',') (keyValue item <* blanks)
  blanks
  char '\x7d'
  match Fields.addAll entries [] with
  | some fields => return .table (fieldValues fields)
  | none => failure

/-- A value with arrays and tables nested at most so deep. -/
def valueTo : Nat → Scan Value
  | 0 => scalar
  | depth + 1 => scalar <|> array (valueTo depth) <|> inlineTable (valueTo depth)

/-- A value. -/
def value : Scan Value := valueTo (limit - 1)

/-! ## 2. Lines -/

/-- A line of a document. Headers in double brackets start a further row of an array. -/
inductive Line where
  | blank
  | header (row : Bool) (key : List String)
  | entry (key : List String) (value : Value)

/-- What may follow on a line: a comment. -/
def trailing : Scan Unit := do
  blanks
  discard (optional comment)
  lineEnd

/-- A header line. -/
def header : Scan Line :=
  (do
    chars ['[', '[']
    let k ← key
    chars [']', ']']
    trailing
    return .header true k)
  <|> (do
    char '['
    let k ← key
    char ']'
    trailing
    return .header false k)

/-- An entry line. -/
def entry : Scan Line := do
  let (k, v) ← keyValue value
  trailing
  return .entry k v

/-- One line. -/
def line : Scan Line :=
  ((comment *> lineEnd) *> pure .blank) <|> (newline *> pure .blank) <|> header <|> entry

/-- All lines, after a byte order mark if there is one. -/
def lines : Scan (List Line) := do
  discard (optional (char '\uFEFF'))
  blanks
  many (line <* blanks)

/-! ## 3. Sections -/

/-- A header and the entries under it. -/
structure Section where
  row : Bool
  key : List String
  entries : List (List String × Value)

/-- The entries before the first header, and the sections. -/
def sections : List Line → List (List String × Value) × List Section
  | [] => ([], [])
  | .blank :: rest => sections rest
  | .entry k v :: rest =>
    let (entries, others) := sections rest
    ((k, v) :: entries, others)
  | .header row k :: rest =>
    let (entries, others) := sections rest
    ([], { row := row, key := k, entries := entries } :: others)

/-- The node for a section, given what stands under its key. A table can have one header only. -/
def Section.node (s : Section) : Option Node → Option Node
  | none => do
    let fields ← Fields.addAll s.entries []
    return if s.row then .tables [fields] else .table .header fields
  | some (.tables rows) => do
    if !s.row then failure
    let fields ← Fields.addAll s.entries []
    return .tables (rows ++ [fields])
  | some (.table .longerHeader fields) => do
    if s.row then failure
    let fields ← Fields.addAll s.entries fields
    return .table .header fields
  | some _ => none

/-- A section put into its place. -/
def Section.place (s : Section) (fields : Fields) : Option Fields :=
  match s.key.getLast? with
  | some last => Fields.within (Fields.alter last s.node) s.key.dropLast fields
  | none => none

/-- The entries of a document, or nothing if it is not well formed. -/
def read? (text : List Char) : Option (List (String × Value)) := do
  let ls ← lines.whole? text
  let (entries, others) := sections ls
  let fields ← Fields.addAll entries []
  let fields ← others.foldlM (fun fields s => s.place fields) fields
  return fieldValues fields

end EntityQuery.Toml
