import EntityQuery.Number.DateTime
import EntityQuery.Number.Decimal
import EntityQuery.ValueType

/-!
Literal values of queries.

* `Literal` -- a value with its type;
* `Literal.text` -- its text in a query;
* `Literal.storedValue` -- the value handed to the store with a statement.
-/
namespace EntityQuery

/-- A literal value. -/
inductive Literal where
  | bool (value : Bool)
  | int32 (value : Int32)
  | int64 (value : Int64)
  | double (value : Double)
  | decimal (value : Decimal)
  | string (value : String)
  | char (value : Char)
  | dateTime (value : DateTime)
  deriving DecidableEq

/-- A value handed to the store: a truth value, or the text of any other. -/
inductive StoredValue where
  | flag (value : Bool)
  | text (value : String)
  deriving DecidableEq

/-- A stored value as a document. -/
def StoredValue.document : StoredValue → Document
  | .flag b => .flag b
  | .text s => .text s

namespace Literal

/-- The type of a literal. -/
def type : Literal → ValueType
  | .bool _ => .bool
  | .int32 _ => .int32
  | .int64 _ => .int64
  | .double _ => .double
  | .decimal _ => .decimal
  | .string _ => .string
  | .char _ => .char
  | .dateTime _ => .dateTime

/-- A quote inside a text gets a backslash in front; nothing else does. -/
def escapeQuotes (s : List Char) : List Char :=
  s.flatMap fun c => if c = '"' then ['\\', '"'] else [c]

/-- The text of a literal in a query: `L` marks 64-bit integers and `m` decimals. -/
def text : Literal → String
  | .bool b => if b then "true" else "false"
  | .int32 n => toString n.toInt
  | .int64 n => toString n.toInt ++ "L"
  | .double x => Layout.marked.write x
  | .decimal d => d.text ++ "m"
  | .string s => "\"" ++ String.ofList (escapeQuotes s.toList) ++ "\""
  | .char c => "'" ++ String.singleton c ++ "'"
  | .dateTime t => t.text

/-- The value handed to the store: numbers are written as texts, without mark or exponent. -/
def storedValue : Literal → StoredValue
  | .bool b => .flag b
  | .int32 n => .text (toString n.toInt)
  | .int64 n => .text (toString n.toInt)
  | .double x => .text (Layout.plain.write x)
  | .decimal d => .text d.text
  | .string s => .text s
  | .char c => .text (String.singleton c)
  | .dateTime t => .text t.text

/-- The negative of a number. The least integer of a width has none, and other literals neither. -/
def neg? : Literal → Option Literal
  | .int32 n => if n = Int32.minValue then none else some (.int32 (-n))
  | .int64 n => if n = Int64.minValue then none else some (.int64 (-n))
  | .double x => some (.double x.neg)
  | .decimal d => some (.decimal d.neg)
  | _ => none

/-- A literal as a document: its value under the tag of its kind. -/
def document : Literal → Document
  | .bool b => .tagged "Bool" (.flag b)
  | .int32 n => .tagged "Int32" (.integer n.toInt)
  | .int64 n => .tagged "Int64" (.integer n.toInt)
  | .double x => .tagged "Double" (.double x)
  | .decimal d => .tagged "Decimal" (.text d.text)
  | .string s => .tagged "String" (.text s)
  | .char c => .tagged "Char" (.text (String.singleton c))
  | .dateTime t => .tagged "DateTime" (.text t.text)

end Literal

end EntityQuery
