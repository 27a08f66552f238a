import EntityQuery.Model
import EntityQuery.Toml.Read

/-!
Models declared in TOML documents.

* `Property.ofToml?`, `Entity.ofToml?`, `Model.ofToml?` -- what a value declares; a property or an
  entity may be given by its named parts or by all parts in order;
* `Model.parse` -- the well-formed model of a document.
-/
namespace EntityQuery

open Toml (Value valueOf?)

/-- The string that a value is. -/
def Toml.Value.string? : Value → Option String
  | .string s => some s
  | _ => none

/-- Nothing is inside. -/
def Toml.Value.isVoid : Value → Bool
  | .array items => items.isEmpty
  | .table entries => entries.isEmpty
  | _ => false

/-- The parts of a value by their labels: those of a table, or the items of an array in order. -/
def Toml.Value.parts? (labels : List String) : Value → Option (List (String × Value))
  | .table entries => some entries
  | .array items => some (labels.zip items)
  | _ => none

/-- A string that may be missing. -/
def optionalString (label : String) (parts : List (String × Value)) : Option (Option String) :=
  (valueOf? label parts).mapM Value.string?

/-- A type by its name, or under its name: an entity type with the name of the entity. -/
def ValueType.ofToml? : Value → Option ValueType
  | .string name => ofName? name
  | .table [(name, v)] =>
    if name = "entity" then v.string?.map .entity
    else if v.isVoid then ofName? name
    else none
  | _ => none

/-- The property that a value declares. -/
def Property.ofToml? (v : Value) : Option Property := do
  let parts ← v.parts? ["name", "type", "attribute"]
  let name ← (← valueOf? "name" parts).string?
  let type ← ValueType.ofToml? (← valueOf? "type" parts)
  let storedAs ← optionalString "attribute" parts
  return { name, type, storedAs }

/-- The declarations in an array; there are none if it is missing. -/
def declared {α : Type} (read : Value → Option α) : Option Value → Option (List α)
  | none => some []
  | some (.array items) => items.mapM read
  | some _ => none

/-- The entity that a value declares. -/
def Entity.ofToml? (v : Value) : Option Entity := do
  let parts ← v.parts? ["name", "table", "partition_key", "sort_key", "properties"]
  let name ← (← valueOf? "name" parts).string?
  let table ← optionalString "table" parts
  let partitionKey ← optionalString "partition_key" parts
  let sortKey ← optionalString "sort_key" parts
  let properties ← declared Property.ofToml? (valueOf? "properties" parts)
  return { name, table, partitionKey, sortKey, properties }

/-- The model that a document declares. -/
def Model.ofToml? (entries : List (String × Value)) : Option Model := do
  let entities ← declared Entity.ofToml? (valueOf? "entities" entries)
  return { entities }

/-- The model of a document, if it can be read and is well formed. -/
def Model.parse (text : String) : Except ModelFault Model :=
  match (Toml.read? text.toList).bind ofToml? with
  | none => .error .unreadable
  | some m => do
    m.check
    return m

end EntityQuery
