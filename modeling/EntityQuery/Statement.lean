import EntityQuery.Shape

/-!
PartiQL statements with positional parameters.

* `Statement` -- a text with placeholders and the parameters for them, in order;
* `Expr.render` -- the text and parameters of an expression; every constant but null becomes a
  placeholder, a comparison with null becomes a test for it, and a binary operation inside another
  expression stands in parentheses;
* `Shape.selectList` -- the attributes that a statement selects, in order of first use;
* `Shape.statement` -- the statement of a shape.
-/
namespace EntityQuery

/-! ## 1. Parameters and fragments -/

/-- A value handed over with a statement. -/
structure Parameter where
  type : StoreType
  value : StoredValue
  deriving DecidableEq

/-- A parameter as a document. -/
def Parameter.document (p : Parameter) : Document :=
  .record [("attribute_type", p.type.document), ("value", p.value.document)]

/-- The parameter for a constant: stored as its mapping says or, without one, as its own type. -/
def Parameter.of (value : Literal) (mapping : Option Mapping) : Parameter :=
  { type := match mapping with
      | some m => m.stored
      | none => value.type.stored
    value := value.storedValue }

/-- A text with placeholders and the parameters for them. -/
structure Statement where
  text : String
  parameters : List Parameter
  deriving DecidableEq

namespace Statement

/-- A statement as a document. -/
def document (s : Statement) : Document :=
  .record [("statement", .text s.text), ("parameters", .list (s.parameters.map Parameter.document))]

/-- A text without placeholders. -/
def ofText (text : String) : Statement := { text := text, parameters := [] }

/-- One text after another. -/
def append (a b : Statement) : Statement :=
  { text := a.text ++ b.text, parameters := a.parameters ++ b.parameters }

instance : Append Statement := ⟨append⟩

@[simp] theorem text_append (a b : Statement) : (a ++ b).text = a.text ++ b.text := rfl

@[simp] theorem parameters_append (a b : Statement) :
    (a ++ b).parameters = a.parameters ++ b.parameters := rfl

@[simp] theorem parameters_ofText (text : String) : (ofText text).parameters = [] := rfl

/-- Texts with a separator between them. -/
def intercalate (separator : String) : List Statement → Statement
  | [] => ofText ""
  | [a] => a
  | a :: b :: rest => a ++ ofText separator ++ intercalate separator (b :: rest)

theorem text_intercalate (separator : String) :
    ∀ ss : List Statement, (intercalate separator ss).text = separator.intercalate (ss.map text)
  | [] => rfl
  | [s] => by
    rw [List.map_singleton, String.intercalate_singleton]
    rfl
  | s :: t :: rest => by
    have ih := text_intercalate separator (t :: rest)
    rw [intercalate, text_append, text_append, ih]
    exact String.intercalate_cons_cons.symm

/-- A text in parentheses. -/
def parenthesised (s : Statement) : Statement := ofText "(" ++ s ++ ofText ")"

end Statement

/-! ## 2. Expressions -/

/-- A name in double quotes; quotes inside it are doubled. -/
def quoteName (name : String) : String :=
  "\"" ++ String.ofList (name.toList.flatMap fun c => if c = '"' then ['"', '"'] else [c]) ++ "\""

/-- What an equality or inequality with null becomes, after the other operand. -/
def Expr.BinaryOp.nullTest? : Expr.BinaryOp → Option String
  | .equal => some " IS NULL"
  | .notEqual => some " IS NOT NULL"
  | _ => none

/-- Why a shape has no statement: a whole row stands where a value is needed. -/
inductive RenderFault where
  | rowInside (entity : String)
  deriving DecidableEq

/-- The fault in words. -/
def RenderFault.message : RenderFault → String
  | .rowInside e => s!"entity '{e}' cannot be used inside an expression"

namespace Expr

/-- A nested binary operation stands in parentheses. -/
def wrap (nested : Bool) (s : Statement) : Statement := if nested then s.parenthesised else s

mutual
/-- The text and the parameters of an expression. -/
def render (nested : Bool) : Expr → Except RenderFault Statement
  | .constant none _ _ => .ok (.ofText "NULL")
  | .constant (some value) _ mapping =>
    .ok { text := "?", parameters := [.of value mapping] }
  | .unary op operand _ _ => do
    let s ← render true operand
    return .ofText op.lead ++ s
  | .binary op left right _ _ =>
    match op.nullTest?, left.isNull, right.isNull with
    | some test, _, true => do
      let s ← render true left
      return wrap nested (s ++ .ofText test)
    | some test, true, false => do
      let s ← render true right
      return wrap nested (s ++ .ofText test)
    | _, _, _ => do
      let s ← render true left
      let t ← render true right
      return wrap nested (s ++ .ofText (" " ++ op.token ++ " ") ++ t)
  | .call function arguments _ _ => do
    let ss ← renderAll arguments
    return .ofText (function ++ "(") ++ .intercalate ", " ss ++ .ofText ")"
  | .attr ref => .ok (.ofText (quoteName ref.property.storedAs))
  | .row ref => .error (.rowInside ref.entity)

/-- The arguments of a function in turn. -/
def renderAll : List Expr → Except RenderFault (List Statement)
  | [] => .ok []
  | e :: rest => do
    let s ← render false e
    let ss ← renderAll rest
    return s :: ss
end

end Expr

/-- One term of the order. -/
def OrderTerm.render (o : OrderTerm) : Except RenderFault Statement := do
  let s ← o.expr.render false
  return if o.descending then s ++ .ofText " DESC" else s

/-! ## 3. Shapes -/

/-- The names without repetitions, in order of first occurrence. -/
def firstOccurrences : List String → List String
  | [] => []
  | n :: rest => n :: (firstOccurrences rest).filter (· ≠ n)

/-- The same names, and none of them twice. -/
theorem mem_firstOccurrences {name : String} {names : List String} :
    name ∈ firstOccurrences names ↔ name ∈ names := by
  induction names with
  | nil => simp [firstOccurrences]
  | cons n rest ih =>
    by_cases h : name = n <;> simp [firstOccurrences, h, ih]

theorem nodup_firstOccurrences (names : List String) : (firstOccurrences names).Nodup := by
  induction names with
  | nil => simp [firstOccurrences]
  | cons n rest ih =>
    simp only [firstOccurrences, List.nodup_cons]
    exact ⟨by simp, ih.filter _⟩

namespace Shape

/-- The names of the attributes that the projected expressions read. -/
def readAttributes (shape : Shape) : List String :=
  (shape.projection.flatMap fun entry => entry.2.attributes).map fun ref => ref.property.storedAs

/-- The attributes selected by name; everything, if a whole row is projected or nothing is read. -/
def selectList (shape : Shape) : String :=
  if shape.projection.any (fun entry => entry.2.isRow) || shape.readAttributes.isEmpty then "*"
  else ", ".intercalate ((firstOccurrences shape.readAttributes).map quoteName)

/-- The condition of a statement. -/
def whereClause (shape : Shape) : Except RenderFault Statement :=
  match shape.filter with
  | none => .ok (.ofText "")
  | some e => do
    let s ← e.render false
    return .ofText " WHERE " ++ s

/-- The order of a statement. -/
def orderClause (shape : Shape) : Except RenderFault Statement :=
  if shape.order.isEmpty then .ok (.ofText "")
  else do
    let terms ← shape.order.mapM OrderTerm.render
    return .ofText " ORDER BY " ++ .intercalate ", " terms

/-- The statement of a shape. -/
def statement (shape : Shape) : Except RenderFault Statement := do
  let condition ← shape.whereClause
  let order ← shape.orderClause
  return .ofText ("SELECT " ++ shape.selectList ++ " FROM " ++ quoteName shape.source.table)
    ++ condition ++ order

end Shape

end EntityQuery
