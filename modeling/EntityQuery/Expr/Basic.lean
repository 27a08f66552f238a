import EntityQuery.Literal
import EntityQuery.Model

/-!
Expressions over the attributes of a table, as a PartiQL statement holds them.

* `Source` -- the entity that is read and its table;
* `AttributeRef` -- an attribute of the source, with the property it holds;
* `Expr` -- an expression; every node knows the type of its value and, if it has one, its mapping;
* `Expr.attributes` -- the attributes that an expression reads, from left to right;
* `Expr.text`, `Expr.document` -- the expression as a text for people, and as a document.
-/
namespace EntityQuery

/-! ## 1. Sources and attributes -/

/-- The entity that is read and its table. -/
structure Source where
  entity : String
  table : String
  deriving DecidableEq

namespace Source

/-- An entity of a model as a source. -/
def of (e : Entity) : Source := { entity := e.name, table := e.tableName }

/-- The name of the entity in quotes. -/
def text (s : Source) : String := "\"" ++ s.entity ++ "\""

/-- A source as a document. -/
def document (s : Source) : Document :=
  .record [("entity", .text s.entity), ("table", .text s.table)]

end Source

/-- A property as an expression refers to it. -/
structure PropertyRef where
  name : String
  storedAs : String
  type : ValueType
  mapping : Option Mapping
  deriving DecidableEq

/-- The reference to a property of a model. -/
def PropertyRef.of (p : Property) : PropertyRef :=
  { name := p.name, storedAs := p.attributeName, type := p.type, mapping := p.mapping? }

/-- A reference to a property as a document. -/
def PropertyRef.document (p : PropertyRef) : Document :=
  .record [("name", .text p.name), ("attribute", .text p.storedAs),
    ("host_type", p.type.document), ("type_mapping", .optional Mapping.document p.mapping)]

/-- An attribute of a source. -/
structure AttributeRef where
  property : PropertyRef
  source : Source
  deriving DecidableEq

namespace AttributeRef

/-- The attribute that holds a property. -/
def of (p : Property) (source : Source) : AttributeRef :=
  { property := .of p, source := source }

/-- The source and the name of the attribute. -/
def text (a : AttributeRef) : String := a.source.text ++ "." ++ a.property.storedAs

/-- An attribute as a document. -/
def document (a : AttributeRef) : Document :=
  .record [("property", a.property.document), ("source", a.source.document)]

end AttributeRef

/-- The whole row of an entity. -/
structure RowRef where
  entity : String
  source : Source
  deriving DecidableEq

namespace RowRef

/-- All attributes of the source. -/
def text (r : RowRef) : String := r.source.text ++ ".*"

/-- A whole row as a document. -/
def document (r : RowRef) : Document :=
  .record [("entity", .text r.entity), ("source", r.source.document)]

end RowRef

namespace Expr

/-! ## 2. Operators -/

/-- Operators before an operand. -/
inductive UnaryOp where
  | not
  | negate
  deriving DecidableEq

namespace UnaryOp

/-- The operator in a statement. -/
def token : UnaryOp → String
  | .not => "NOT"
  | .negate => "-"

/-- The operator with what separates it from its operand. -/
def lead : UnaryOp → String
  | .not => "NOT "
  | .negate => "-"

/-- The name of an operator. -/
def tag : UnaryOp → String
  | .not => "Not"
  | .negate => "Negate"

/-- The operator with a given name. -/
def ofName? (name : String) : Option UnaryOp :=
  [.not, .negate].find? fun op => op.tag = name

end UnaryOp

/-- Operators between two operands. -/
inductive BinaryOp where
  | and
  | or
  | equal
  | notEqual
  | less
  | lessEqual
  | greater
  | greaterEqual
  deriving DecidableEq

namespace BinaryOp

/-- The operator in a statement. -/
def token : BinaryOp → String
  | .and => "AND"
  | .or => "OR"
  | .equal => "="
  | .notEqual => "<>"
  | .less => "<"
  | .lessEqual => "<="
  | .greater => ">"
  | .greaterEqual => ">="

/-- The name of an operator. -/
def tag : BinaryOp → String
  | .and => "AndAlso"
  | .or => "OrElse"
  | .equal => "Equal"
  | .notEqual => "NotEqual"
  | .less => "LessThan"
  | .lessEqual => "LessThanOrEqual"
  | .greater => "GreaterThan"
  | .greaterEqual => "GreaterThanOrEqual"

/-- The operator with a given name. -/
def ofName? (name : String) : Option BinaryOp :=
  [.and, .or, .equal, .notEqual, .less, .lessEqual, .greater, .greaterEqual].find?
    fun op => op.tag = name

/-- Operators on truth values, as opposed to comparisons. -/
def isLogical : BinaryOp → Bool
  | .and => true
  | .or => true
  | _ => false

end BinaryOp

end Expr

/-! ## 3. Expressions -/

/-- An expression over the attributes of a source. -/
inductive Expr where
  | constant (value : Option Literal) (type : ValueType) (mapping : Option Mapping)
  | unary (op : Expr.UnaryOp) (operand : Expr) (type : ValueType) (mapping : Option Mapping)
  | binary (op : Expr.BinaryOp) (left right : Expr) (type : ValueType) (mapping : Option Mapping)
  | call (function : String) (arguments : List Expr) (type : ValueType) (mapping : Option Mapping)
  | attr (ref : AttributeRef)
  | row (ref : RowRef)

namespace Expr

/-- The type of the value of an expression. -/
def type : Expr → ValueType
  | .constant _ type _ => type
  | .unary _ _ type _ => type
  | .binary _ _ _ type _ => type
  | .call _ _ type _ => type
  | .attr ref => ref.property.type
  | .row ref => .entity ref.entity

/-- How the value of an expression is stored, if that is known. -/
def mapping : Expr → Option Mapping
  | .constant _ _ mapping => mapping
  | .unary _ _ _ mapping => mapping
  | .binary _ _ _ _ mapping => mapping
  | .call _ _ _ mapping => mapping
  | .attr ref => ref.property.mapping
  | .row _ => none

/-- The missing value. -/
def isNull : Expr → Bool
  | .constant none _ _ => true
  | _ => false

/-- A whole row. -/
def isRow : Expr → Bool
  | .row _ => true
  | _ => false

mutual
/-- The attributes that an expression reads, from left to right and with repetitions. -/
def attributes : Expr → List AttributeRef
  | .constant _ _ _ => []
  | .unary _ operand _ _ => attributes operand
  | .binary _ left right _ _ => attributes left ++ attributes right
  | .call _ arguments _ _ => attributesIn arguments
  | .attr ref => [ref]
  | .row _ => []

/-- The attributes that expressions read, in turn. -/
def attributesIn : List Expr → List AttributeRef
  | [] => []
  | e :: rest => attributes e ++ attributesIn rest
end

mutual
/-- The text of an expression. -/
def text : Expr → String
  | .constant (some value) _ _ => value.text
  | .constant none _ _ => "null"
  | .unary op operand _ _ => op.lead ++ text operand
  | .binary op left right _ _ => "(" ++ text left ++ " " ++ op.token ++ " " ++ text right ++ ")"
  | .call function arguments _ _ => function ++ "(" ++ ", ".intercalate (texts arguments) ++ ")"
  | .attr ref => ref.text
  | .row ref => ref.text

/-- The texts of expressions in turn. -/
def texts : List Expr → List String
  | [] => []
  | e :: rest => text e :: texts rest
end

mutual
/-- An expression as a document: each node under its tag. -/
def document : Expr → Document
  | .constant value type mapping =>
    .tagged "Constant" (.record [("value", .optional Literal.document value),
      ("host_type", type.document), ("type_mapping", .optional Mapping.document mapping)])
  | .unary op operand type mapping =>
    .tagged "Unary" (.record [("op", .text op.tag), ("operand", document operand),
      ("host_type", type.document), ("type_mapping", .optional Mapping.document mapping)])
  | .binary op left right type mapping =>
    .tagged "Binary" (.record [("op", .text op.tag), ("left", document left),
      ("right", document right), ("host_type", type.document),
      ("type_mapping", .optional Mapping.document mapping)])
  | .call function arguments type mapping =>
    .tagged "FunctionCall" (.record [("name", .text function),
      ("args", .list (documents arguments)), ("return_type", type.document),
      ("type_mapping", .optional Mapping.document mapping)])
  | .attr ref => .tagged "AttributeAccess" ref.document
  | .row ref => .tagged "EntityProjection" ref.document

/-- The documents of expressions in turn. -/
def documents : List Expr → List Document
  | [] => []
  | e :: rest => document e :: documents rest
end

end Expr

end EntityQuery
