import EntityQuery.Expr.Basic

/-!
Building expressions: types and mappings are taken from the parts.

A constant beside an expression with a mapping is sent to the store as that expression is stored.

* `Expr.assume` -- gives a mapping to a constant that has none, and changes neither types nor the
  attributes that are read;
* `Expr.compare`, `Expr.join` -- the two sides of a comparison give each other their mappings, those
  of a logical operator do not; `Expr.ofBinary` chooses between them;
* `Expr.ofUnary`, `Expr.ofCall` -- operators before an operand, and functions of the store.
-/
namespace EntityQuery

namespace Expr

/-- A literal with a mapping, if one is known. -/
def ofLiteral (value : Literal) (mapping : Option Mapping) : Expr :=
  .constant (some value) value.type mapping

/-- The missing value of a type. -/
def null (type : ValueType) : Expr := .constant none type none

/-- A constant without a mapping takes the one given; nothing else changes. -/
def assume (given : Option Mapping) : Expr → Expr
  | .constant value type none => .constant value type given
  | e => e

theorem type_assume (given : Option Mapping) (e : Expr) : (e.assume given).type = e.type := by
  unfold assume
  split <;> rfl

theorem attributes_assume (given : Option Mapping) (e : Expr) :
    (e.assume given).attributes = e.attributes := by
  unfold assume
  split <;> simp [attributes]

/-- An expression that has a mapping keeps it. -/
theorem assume_of_mapping {given : Option Mapping} {e : Expr} {m : Mapping}
    (h : e.mapping = some m) : e.assume given = e := by
  unfold assume
  split
  · cases h
  · rfl

/-- An operator between two operands, with the type and mapping of the left one. -/
def join (op : BinaryOp) (left right : Expr) : Expr :=
  .binary op left right left.type left.mapping

/-- An operator between two operands that give each other their mappings. -/
def compare (op : BinaryOp) (left right : Expr) : Expr :=
  join op (left.assume right.mapping) (right.assume left.mapping)

/-- An operator between two operands. -/
def ofBinary (op : BinaryOp) (left right : Expr) : Expr :=
  if op.isLogical then join op left right else compare op left right

/-- Both hold. -/
def both (left right : Expr) : Expr := ofBinary .and left right

theorem both_eq_binary (left right : Expr) :
    both left right = .binary .and left right left.type left.mapping := rfl

/-- An operator before an operand, with its type and mapping. -/
def ofUnary (op : UnaryOp) (operand : Expr) : Expr :=
  .unary op operand operand.type operand.mapping

/-- A function of the store. Arguments that are constants without a mapping take that of the first
    argument, and the result has the mapping of its type. -/
def ofCall (function : String) (arguments : List Expr) (type : ValueType) : Expr :=
  let first := arguments.head?.bind mapping
  .call function (arguments.map (assume first)) type type.mapping?

/-- The left text starts with the right one. -/
def beginsWith (left right : Expr) : Expr := ofCall "BEGINS_WITH" [left, right] .bool

/-- The left text holds the right one. -/
def contains (left right : Expr) : Expr := ofCall "CONTAINS" [left, right] .bool

end Expr

end EntityQuery
