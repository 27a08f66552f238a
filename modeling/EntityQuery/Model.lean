import EntityQuery.ValueType

/-!
Models: the entities that can be queried, their tables, keys and properties.

* `Property`, `Entity`, `Model` -- what is declared, in the order of declaration;
* `Model.find?`, `Entity.find?` -- look-up by name, where the first declaration counts;
* `Model.check` -- no name is declared twice, no table name is empty, and keys are declared
  properties; the first violation in the order of declaration is reported.
-/
namespace EntityQuery

/-! ## 1. Declarations -/

/-- A property of an entity, kept in the store under an attribute name of its own or, without one,
    under the name of the property. -/
structure Property where
  name : String
  type : ValueType
  storedAs : Option String := none
  deriving DecidableEq

/-- The name of the attribute that holds the property. -/
def Property.attributeName (p : Property) : String := p.storedAs.getD p.name

/-- How the values of the property are stored, if it has single values. -/
def Property.mapping? (p : Property) : Option Mapping := p.type.mapping?

/-- An entity, kept in a table of its own name unless another is given. -/
structure Entity where
  name : String
  table : Option String := none
  partitionKey : Option String := none
  sortKey : Option String := none
  properties : List Property := []
  deriving DecidableEq

/-- The name of the table that holds the rows of the entity. -/
def Entity.tableName (e : Entity) : String := e.table.getD e.name

/-- The first property of that name. -/
def Entity.find? (e : Entity) (name : String) : Option Property :=
  e.properties.find? fun p => p.name = name

/-- The entities that can be queried. -/
structure Model where
  entities : List Entity := []
  deriving DecidableEq

/-- The first entity of that name. -/
def Model.find? (m : Model) (name : String) : Option Entity :=
  m.entities.find? fun e => e.name = name

/-- A further entity at the end. -/
def Model.add (m : Model) (e : Entity) : Model := { entities := m.entities ++ [e] }

/-! ## 2. Well-formedness -/

/-- The two keys of an entity. -/
inductive KeyRole where
  | partition
  | sort
  deriving DecidableEq

/-- The role in words. -/
def KeyRole.text : KeyRole → String
  | .partition => "partition key"
  | .sort => "sort key"

/-- What can be wrong with a model. -/
inductive ModelFault where
  | unreadable
  | repeatedEntity (entity : String)
  | emptyTable (entity : String)
  | repeatedProperty (property entity : String)
  | undeclaredKey (role : KeyRole) (key entity : String)
  deriving DecidableEq

/-- The fault in words. -/
def ModelFault.message : ModelFault → String
  | .unreadable => "Failed to parse model:"
  | .repeatedEntity e => s!"Entity '{e}' is declared more than once"
  | .emptyTable e => s!"Entity '{e}' has an empty table name"
  | .repeatedProperty p e => s!"Property '{p}' is declared more than once on '{e}'"
  | .undeclaredKey role k e => s!"The {role.text} '{k}' of '{e}' is not a declared property"

/-- The first of the names that is among those seen or before it. -/
def firstRepeated? (seen : List String) : List String → Option String
  | [] => none
  | n :: rest => if n ∈ seen then some n else firstRepeated? (n :: seen) rest

/-- The fault of a key that no property is declared for. -/
def Entity.keyFault? (e : Entity) (role : KeyRole) : Option String → Option ModelFault
  | none => none
  | some key => if (e.find? key).isSome then none else some (.undeclaredKey role key e.name)

/-- The first fault of an entity by itself: its table, its properties, then its keys. -/
def Entity.fault? (e : Entity) : Option ModelFault :=
  if e.table = some "" then some (.emptyTable e.name)
  else
    match firstRepeated? [] (e.properties.map Property.name) with
    | some p => some (.repeatedProperty p e.name)
    | none => e.keyFault? .partition e.partitionKey <|> e.keyFault? .sort e.sortKey

/-- The first fault of the entities, given the names seen before them. -/
def entitiesFault? (seen : List String) : List Entity → Option ModelFault
  | [] => none
  | e :: rest =>
    if e.name ∈ seen then some (.repeatedEntity e.name)
    else e.fault? <|> entitiesFault? (e.name :: seen) rest

/-- The model is well formed, or its first fault. -/
def Model.check (m : Model) : Except ModelFault Unit :=
  match entitiesFault? [] m.entities with
  | some fault => .error fault
  | none => .ok ()

/-! ## 3. Documents -/

/-- A property as a document. -/
def Property.document (p : Property) : Document :=
  .record [("name", .text p.name), ("type", p.type.document),
    ("attribute", .optional .text p.storedAs)]

/-- An entity as a document. -/
def Entity.document (e : Entity) : Document :=
  .record [("name", .text e.name), ("table", .optional .text e.table),
    ("partition_key", .optional .text e.partitionKey), ("sort_key", .optional .text e.sortKey),
    ("properties", .list (e.properties.map Property.document))]

/-- A model as a document. -/
def Model.document (m : Model) : Document :=
  .record [("entities", .list (m.entities.map Entity.document))]

end EntityQuery
