import EntityQuery.Call
import EntityQuery.Shape
import EntityQuery.Term.Resolve

/-!
From the terms of a query to expressions over the attributes of its source.

* `Obstacle` -- why a term has no expression, found at the innermost place that has none;
* `Context` -- the model and the rules for calls;
* `Context.lower` -- the expression of a term, operands from left to right; attributes are taken
  into use as they are met, also when an obstacle follows.
-/
namespace EntityQuery

/-! ## 1. Obstacles -/

/-- Why a term has no expression. -/
inductive Obstacle where
  | operator (op : BinaryOp)
  | rowAt (path : Path)
  | nothingAt (path : Path)
  | ownerCall (method : Method)
  | unknownCall (method : Method) (receiver : ValueType)
  | rowAsValue (entity : String)
  | freeParameter (name : String)
  | construct (term : Term)
  | conversion (source target : ValueType)
  | unaryOperator (op : UnaryOp) (term : Term)
  | unknownEntity (entity : String)
  | unknownProperty (entity property : String)
  | unboundRow (path : Path) (entity : String)
  | noMember (target : Term) (label : String)
  | memberAccess (term : Term)

/-- The obstacle in words. -/
def Obstacle.message : Obstacle → String
  | .operator op => s!"binary operator '{op.symbol}' has no PartiQL equivalent"
  | .rowAt path => s!"projection '{path.text}' is an entity, not a scalar"
  | .nothingAt path => s!"projection '{path.text}' was never bound"
  | .ownerCall method => s!"static method '{method.text}' has no translation"
  | .unknownCall method type => s!"method '{method.text}' on '{type.text}' has no translation"
  | .rowAsValue e => s!"entity '{e}' cannot be used as a scalar value"
  | .freeParameter name => s!"unbound parameter '{name}'"
  | .construct term => s!"'{term.text}' has no PartiQL equivalent"
  | .conversion a b => s!"conversion from '{a.text}' to '{b.text}' changes the stored type"
  | .unaryOperator op term => s!"unary operator '{op.text}' in '{term.text}' is not supported"
  | .unknownEntity e => s!"unknown entity '{e}'"
  | .unknownProperty e p => s!"entity '{e}' has no property '{p}'"
  | .unboundRow path e => s!"'{path.text}' is not bound to entity '{e}'"
  | .noMember target label => s!"'{target.text}' has no member '{label}'"
  | .memberAccess term => s!"member access '{term.text}' is not supported"

/-! ## 2. Context -/

/-- The model, and the rules for calls in the order in which they are asked. -/
structure Context where
  model : Model
  rules : List CallRule := CallRule.extended []

/-- A computation that takes attributes into use, and keeps them in use when it fails. -/
abbrev Using (ε α : Type) := ExceptT ε (StateM Memo) α

/-- Taking the attribute of a property into use. -/
def useAttribute {ε : Type} (property : Property) (source : Source) : Using ε AttributeRef :=
  modifyGet fun memo => memo.use property source

/-! ## 3. Single steps -/

/-- The operator of the store for an operator of queries; arithmetic has none. -/
def BinaryOp.lowered? : BinaryOp → Option Expr.BinaryOp
  | .and => some .and
  | .or => some .or
  | .equal => some .equal
  | .notEqual => some .notEqual
  | .less => some .less
  | .lessEqual => some .lessEqual
  | .greater => some .greater
  | .greaterEqual => some .greaterEqual
  | _ => none

/-- An operator between lowered operands. -/
def BinaryOp.lower (op : BinaryOp) (left right : Expr) : Except Obstacle Expr :=
  match op.lowered? with
  | some op => .ok (.ofBinary op left right)
  | none => .error (.operator op)

/-- An operator before a lowered operand. A plus sign and a cast between types that are stored alike
    change nothing. The operand itself is named in obstacles only. -/
def UnaryOp.lower (op : UnaryOp) (operand : Term) (lowered : Expr) : Except Obstacle Expr :=
  match op with
  | .not => .ok (.ofUnary .not lowered)
  | .negate => .ok (.ofUnary .negate lowered)
  | .negateChecked => .ok (.ofUnary .negate lowered)
  | .plus => .ok lowered
  | .convert target =>
    if lowered.type.storedAlike target then .ok lowered
    else .error (.conversion lowered.type target)
  | .complement => .error (.unaryOperator op (.unary op operand))
  | .arrayLength => .error (.unaryOperator op (.unary op operand))

/-- The value bound at a path. -/
def Shape.valueAt (shape : Shape) (path : Path) : Except Obstacle Expr :=
  match shape.projection.get? path with
  | some e => if e.isRow then .error (.rowAt path) else .ok e
  | none => .error (.nothingAt path)

namespace Context

/-- The property that a label means on the row of an entity, which must be bound at the path. -/
def rowProperty (ctx : Context) (shape : Shape) (entity : String) (path : Path) (label : String) :
    Except Obstacle Property :=
  match ctx.model.find? entity with
  | none => .error (.unknownEntity entity)
  | some e =>
    match e.find? label with
    | none => .error (.unknownProperty entity label)
    | some property =>
      if (shape.rowAt? path).any fun row => row.entity = entity then .ok property
      else .error (.unboundRow path entity)

/-- A call with lowered receiver and arguments. -/
def lowerCall (ctx : Context) (receiver : Expr) (method : Method) (arguments : List Expr) :
    Except Obstacle Expr :=
  match CallRule.first ctx.rules ctx.model receiver method arguments with
  | some e => .ok e
  | none => .error (.unknownCall method receiver.type)

/-! ## 4. Terms -/

mutual
/-- The expression of a term over the rows of a shape. -/
def lower (ctx : Context) (shape : Shape) : Term → Using Obstacle Expr
  | .constant (some value) _ => return .ofLiteral value none
  | .constant none type => return .null type
  | .parameter name => throw (.freeParameter name)
  | .member target label =>
    match ht : target.resolve with
    | .entity name path => do
      let property ← ctx.rowProperty shape name path label
      let ref ← useAttribute property shape.source
      return .attr ref
    | .object members =>
      match hs : Term.memberNamed? label members with
      | some selected =>
        have := Term.sizeOf_selected_lt ht hs
        lower ctx shape selected
      | none => throw (.noMember target label)
    | _ => throw (.memberAccess (.member target label))
  | .unary op operand => do
    let e ← lower ctx shape operand
    op.lower operand e
  | .binary op left right => do
    let l ← lower ctx shape left
    let r ← lower ctx shape right
    op.lower l r
  | .call receiver method arguments => do
    let r ← lower ctx shape receiver
    let args ← lowerAll ctx shape arguments
    ctx.lowerCall r method args
  | .ownerCall method _ => throw (.ownerCall method)
  | .object members => throw (.construct (.object members))
  | .conditional test whenTrue whenFalse =>
    throw (.construct (.conditional test whenTrue whenFalse))
  | .lambda p body => throw (.construct (.lambda p body))
  | .entity name _ => throw (.rowAsValue name)
  | .binding path => shape.valueAt path
termination_by t => sizeOf t

/-- The expressions of terms in turn. -/
def lowerAll (ctx : Context) (shape : Shape) : List Term → Using Obstacle (List Expr)
  | [] => return []
  | t :: rest => do
    let e ← lower ctx shape t
    let es ← lowerAll ctx shape rest
    return e :: es
termination_by ts => sizeOf ts
end

end Context

end EntityQuery
