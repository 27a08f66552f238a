import EntityQuery.Query

/-!
What the command line prints.

* `statementReport` -- the statement of a query and its parameters;
* `explanationReport` -- the operators of a query, its shape and its statement;
* `entitiesReport` -- the entities of a model with their tables, keys and properties.

Each is a text for people, or a JSON document.
-/
namespace EntityQuery.Command

/-- Each text on a line of its own. -/
def unlines (lines : List String) : String := String.join (lines.map fun line => line ++ "\n")

/-- A text with spaces after it up to a width. -/
def padded (width : Nat) (s : String) : String :=
  s ++ String.ofList (List.replicate (width - s.length) ' ')

/-- A document on lines of its own. -/
def documentReport (d : Document) : String := d.pretty ++ "\n"

/-! ## 1. Statements -/

/-- Parameters with their numbers, from a number on. -/
def parameterLines (number : Nat) : List Parameter → List String
  | [] => []
  | p :: rest =>
    ("  ?" ++ toString number ++ " = " ++ p.value.document.compact ++ " ("
        ++ p.type.descriptor ++ ")")
      :: parameterLines (number + 1) rest

/-- The parameters of a statement under a heading, or nothing if there are none. -/
def parameterSection (ps : List Parameter) : List String :=
  if ps.isEmpty then [] else "" :: "Parameters:" :: parameterLines 1 ps

/-- A statement and its parameters. -/
def statementReport (s : Statement) : String := unlines (s.text :: parameterSection s.parameters)

/-! ## 2. Explanations -/

/-- What is projected, under a heading. -/
def projectionLines (projection : Projection) : List String :=
  if projection.isEmpty then ["  Projection: (whole entity)"]
  else "  Projection:" :: projection.map fun (path, e) => "    " ++ path.text ++ " → " ++ e.text

/-- The shape of a query. -/
def shapeLines (shape : Shape) : List String :=
  ["  From: " ++ shape.source.text ++ " (table \"" ++ shape.source.table ++ "\")",
    "  Filter: " ++ (match shape.filter with
      | some e => e.text
      | none => "(none)")]
    ++ projectionLines shape.projection

/-- A query with its operators, its shape and its statement. -/
def explanationReport (query : String) (chain : Chain) (shape : Shape) (s : Statement) : String :=
  unlines (["Query: " ++ query, "", "Operators:"]
    ++ (Operator.texts chain).map (fun op => "  • " ++ op)
    ++ ["", "Query Shape:"] ++ shapeLines shape
    ++ ["", "PartiQL:", "  " ++ s.text] ++ parameterSection s.parameters)

/-- An explanation as a document. -/
def explanationDocument (chain : Chain) (shape : Shape) (s : Statement) : Document :=
  (Document.record [("chain", chain.document), ("query", s.document),
    ("shape", shape.document)]).sorted

/-! ## 3. Entities -/

/-- A property with its type, and its attribute if that has another name. -/
def propertyLine (p : Property) : String :=
  "  " ++ padded 20 p.name ++ " " ++ padded 10 p.type.text
    ++ (if p.attributeName = p.name then "" else " as \"" ++ p.attributeName ++ "\"")

/-- A key, if there is one. -/
def keyLines (heading : String) : Option String → List String
  | some key => ["  " ++ heading ++ " " ++ key]
  | none => []

/-- An entity with its table, keys and properties. -/
def entityLines (e : Entity) : List String :=
  [e.name ++ " → \"" ++ e.tableName ++ "\""] ++ keyLines "Partition key:" e.partitionKey
    ++ keyLines "Sort key:" e.sortKey ++ e.properties.map propertyLine

/-- The entities of a model. -/
def entitiesReport (m : Model) : String :=
  if m.entities.isEmpty then "(no entities)\n" else unlines (m.entities.flatMap entityLines)

end EntityQuery.Command
