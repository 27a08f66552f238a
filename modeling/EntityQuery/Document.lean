import EntityQuery.Number.Layout

/-!
JSON documents with ordered fields, and their text.

* `Document` -- a document; the fields of a record keep their order;
* `Document.sorted` -- the same document with the fields of every record in the order of their
  names;
* `Document.compact`, `Document.pretty` -- the text without blanks, and with two spaces for each
  level.
-/
namespace EntityQuery

/-- A JSON document. -/
inductive Document where
  | null
  | flag (value : Bool)
  | integer (value : Int)
  | double (value : Double)
  | text (value : String)
  | list (items : List Document)
  | record (fields : List (String × Document))

namespace Document

/-! ## 1. Building -/

/-- A record with one field, the form of a tagged value. -/
def tagged (tag : String) (value : Document) : Document := .record [(tag, value)]

/-- The document of a value that may be missing. -/
def optional {α : Type} (f : α → Document) : Option α → Document
  | some a => f a
  | none => .null

/-! ## 2. Order of fields -/

/-- A field put in front of the first field with a greater name. -/
def insertField (name : String) (value : Document) :
    List (String × Document) → List (String × Document)
  | [] => [(name, value)]
  | (n, v) :: rest =>
    if name < n then (name, value) :: (n, v) :: rest else (n, v) :: insertField name value rest

mutual
/-- The fields of every record in the order of their names. -/
def sorted : Document → Document
  | .list items => .list (sortedItems items)
  | .record fields => .record (sortedFields fields)
  | d => d

/-- The items of a list, each sorted. -/
def sortedItems : List Document → List Document
  | [] => []
  | d :: rest => sorted d :: sortedItems rest

/-- The fields of a record, each sorted and in order. -/
def sortedFields : List (String × Document) → List (String × Document)
  | [] => []
  | (name, d) :: rest => insertField name (sorted d) (sortedFields rest)
end

/-! ## 3. Text -/

/-- A hexadecimal digit in lower case. -/
def hexDigit (n : Nat) : Char := (Nat.digitChar n)

/-- A character inside a quoted text. -/
def escape (c : Char) : List Char :=
  if c = '"' then ['\\', '"']
  else if c = '\\' then ['\\', '\\']
  else if c = '\n' then ['\\', 'n']
  else if c = '\r' then ['\\', 'r']
  else if c = '\t' then ['\\', 't']
  else if c.toNat = 8 then ['\\', 'b']
  else if c.toNat = 12 then ['\\', 'f']
  else if c.toNat < 32 then
    ['\\', 'u', '0', '0', hexDigit (c.toNat / 16), hexDigit (c.toNat % 16)]
  else [c]

/-- A text in quotes, its quotes, backslashes and control characters escaped. -/
def quoted (s : String) : String :=
  String.ofList ('"' :: s.toList.flatMap escape ++ ['"'])

/-- A number; an infinity or what is not a number has no JSON text and becomes null. -/
def doubleText (x : Double) : String :=
  if x.isFinite then Layout.json.write x else "null"

mutual
/-- The text without blanks. -/
def compact : Document → String
  | .null => "null"
  | .flag b => if b then "true" else "false"
  | .integer n => toString n
  | .double x => doubleText x
  | .text s => quoted s
  | .list items => "[" ++ ",".intercalate (compactItems items) ++ "]"
  | .record fields => "\x7b" ++ ",".intercalate (compactFields fields) ++ "\x7d"

/-- The texts of the items of a list. -/
def compactItems : List Document → List String
  | [] => []
  | d :: rest => compact d :: compactItems rest

/-- The texts of the fields of a record. -/
def compactFields : List (String × Document) → List String
  | [] => []
  | (name, d) :: rest => (quoted name ++ ":" ++ compact d) :: compactFields rest
end

/-- A new line, indented to a level. -/
def newLine (level : Nat) : String :=
  "\n" ++ String.ofList (List.replicate (2 * level) ' ')

/-- Lines between brackets, one level deeper than the brackets; without lines the brackets alone. -/
def block (opening closing : String) (level : Nat) (lines : List String) : String :=
  if lines.isEmpty then opening ++ closing
  else
    opening ++ newLine (level + 1) ++ ("," ++ newLine (level + 1)).intercalate lines
      ++ newLine level ++ closing

mutual
/-- The text with every item and field on a line of its own, at a level of indentation. -/
def prettyAt (level : Nat) : Document → String
  | .list items => block "[" "]" level (prettyItems (level + 1) items)
  | .record fields => block "\x7b" "\x7d" level (prettyFields (level + 1) fields)
  | .null => "null"
  | .flag b => if b then "true" else "false"
  | .integer n => toString n
  | .double x => doubleText x
  | .text s => quoted s

/-- The texts of the items of a list. -/
def prettyItems (level : Nat) : List Document → List String
  | [] => []
  | d :: rest => prettyAt level d :: prettyItems level rest

/-- The texts of the fields of a record. -/
def prettyFields (level : Nat) : List (String × Document) → List String
  | [] => []
  | (name, d) :: rest => (quoted name ++ ": " ++ prettyAt level d) :: prettyFields level rest
end

/-- The text with every item and field on a line of its own. -/
def pretty (d : Document) : String := prettyAt 0 d

end Document

end EntityQuery
