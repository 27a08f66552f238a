import EntityQuery.Document

/-!
The types of values: as a query sees them, and as the store keeps them.

* `ValueType` -- types in queries and models;
* `StoreType` -- types of stored attributes, each with a short descriptor;
* `ValueType.stored` -- how values of a type are stored;
* `Mapping` -- a type together with a way to store it; `ValueType.mapping?` gives one to the
  primitive types only.
-/
namespace EntityQuery

/-! ## 1. Types of queries -/

/-- The type of a value in a query. `entity` is a row of that name, `object` anything. -/
inductive ValueType where
  | bool
  | int32
  | int64
  | double
  | decimal
  | string
  | char
  | dateTime
  | entity (name : String)
  | object
  deriving DecidableEq

namespace ValueType

/-- The name of a type; that of an entity type is the entity's own. -/
def text : ValueType → String
  | .bool => "bool"
  | .int32 => "int32"
  | .int64 => "int64"
  | .double => "double"
  | .decimal => "decimal"
  | .string => "string"
  | .char => "char"
  | .dateTime => "date_time"
  | .entity name => name
  | .object => "object"

/-- The type with a given name; entity types have none of their own. -/
def ofName? (name : String) : Option ValueType :=
  [.bool, .int32, .int64, .double, .decimal, .string, .char, .dateTime, .object].find?
    fun t => t.text = name

/-- A type of single values, which can be stored. -/
def isPrimitive : ValueType → Bool
  | .entity _ => false
  | .object => false
  | _ => true

/-- A type as a document: its name, or the entity's name under a tag. -/
def document : ValueType → Document
  | .entity name => .tagged "entity" (.text name)
  | t => .text t.text

end ValueType

/-! ## 2. Types of the store -/

/-- The type of a stored attribute. -/
inductive StoreType where
  | text
  | number
  | boolean
  | null
  | textSet
  | numberSet
  deriving DecidableEq

namespace StoreType

/-- The short name under which the store knows a type. -/
def descriptor : StoreType → String
  | .text => "S"
  | .number => "N"
  | .boolean => "BOOL"
  | .null => "NULL"
  | .textSet => "SS"
  | .numberSet => "NS"

/-- The type with a given descriptor. -/
def ofDescriptor? (name : String) : Option StoreType :=
  [.text, .number, .boolean, .null, .textSet, .numberSet].find? fun t => t.descriptor = name

/-- A type as a document. -/
def document (t : StoreType) : Document := .text t.descriptor

end StoreType

/-- How values of a type are stored: numbers as numbers, truth values as such, all else as text. -/
def ValueType.stored : ValueType → StoreType
  | .bool => .boolean
  | .int32 => .number
  | .int64 => .number
  | .double => .number
  | .decimal => .number
  | _ => .text

/-! ## 3. Mappings -/

/-- A type and how its values are stored. -/
structure Mapping where
  type : ValueType
  stored : StoreType
  deriving DecidableEq

/-- The mapping that a type gets by itself. -/
def Mapping.of (type : ValueType) : Mapping := { type := type, stored := type.stored }

/-- A mapping as a document. -/
def Mapping.document (m : Mapping) : Document :=
  .record [("host_type", m.type.document), ("attribute_type", m.stored.document)]

/-- The mapping of a primitive type. -/
def ValueType.mapping? (t : ValueType) : Option Mapping :=
  if t.isPrimitive then some (.of t) else none

/-- Both types are primitive and stored the same way. -/
def ValueType.storedAlike (a b : ValueType) : Bool :=
  a.isPrimitive && b.isPrimitive && a.stored = b.stored

end EntityQuery
