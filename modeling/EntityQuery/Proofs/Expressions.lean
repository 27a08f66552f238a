import EntityQuery.Statement

/-!
Expressions as trees.

* `Expr.induction` -- induction over an expression and the expressions in its lists;
* `Expr.nodes` -- every node of an expression, an operator before its operands and these from left
  to right;
* `Expr.constants`, `Expr.functions` -- the constants other than null with their mappings, and the
  names of the functions, in the order of the nodes.
-/
namespace EntityQuery

namespace Expr

/-! ## 1. Induction -/

/-- **Induction over expressions**: for a call the statement may be assumed of every argument. -/
@[elab_as_elim, induction_eliminator]
theorem induction {motive : Expr → Prop}
    (constant : ∀ value type mapping, motive (.constant value type mapping))
    (unary : ∀ op operand type mapping, motive operand → motive (.unary op operand type mapping))
    (binary : ∀ op left right type mapping, motive left → motive right →
      motive (.binary op left right type mapping))
    (call : ∀ function arguments type mapping, (∀ e ∈ arguments, motive e) →
      motive (.call function arguments type mapping))
    (attr : ∀ ref, motive (.attr ref)) (row : ∀ ref, motive (.row ref)) (e : Expr) : motive e := by
  refine @Expr.rec motive (fun es => ∀ e ∈ es, motive e) constant unary binary call attr row
    ?_ ?_ e
  · exact fun _ h => absurd h List.not_mem_nil
  · intro e es he hes d hd
    rcases List.mem_cons.mp hd with rfl | hd
    · exact he
    · exact hes d hd

/-! ## 2. Nodes -/

mutual
/-- Every node of an expression. -/
def nodes : Expr → List Expr
  | .constant value type mapping => [.constant value type mapping]
  | .unary op operand type mapping => .unary op operand type mapping :: nodes operand
  | .binary op left right type mapping =>
    .binary op left right type mapping :: (nodes left ++ nodes right)
  | .call function arguments type mapping =>
    .call function arguments type mapping :: nodesIn arguments
  | .attr ref => [.attr ref]
  | .row ref => [.row ref]

/-- Every node of the expressions in turn. -/
def nodesIn : List Expr → List Expr
  | [] => []
  | e :: rest => nodes e ++ nodesIn rest
end

theorem nodesIn_eq_flatMap (es : List Expr) : nodesIn es = es.flatMap nodes := by
  induction es with
  | nil => rfl
  | cons e es ih => rw [nodesIn, ih, List.flatMap_cons]

theorem nodes_mem_nodesIn {e : Expr} {es : List Expr} (h : e ∈ es) {n : Expr} (hn : n ∈ e.nodes) :
    n ∈ nodesIn es := by
  rw [nodesIn_eq_flatMap]
  exact List.mem_flatMap.mpr ⟨e, h, hn⟩

/-- The value and the mapping of a constant that is not null. -/
def constant? : Expr → Option (Literal × Option Mapping)
  | .constant (some value) _ mapping => some (value, mapping)
  | _ => none

/-- The name of the function that is called. -/
def function? : Expr → Option String
  | .call function _ _ _ => some function
  | _ => none

/-- The constants of an expression other than null, with their mappings, from left to right. -/
def constants (e : Expr) : List (Literal × Option Mapping) := e.nodes.filterMap constant?

/-- The names of the functions that an expression calls. -/
def functions (e : Expr) : List String := e.nodes.filterMap function?

/-! ## 3. Constants and functions node by node -/

section

variable (type : ValueType) (mapping : Option Mapping)

@[simp] theorem constants_value (value : Literal) :
    (Expr.constant (some value) type mapping).constants = [(value, mapping)] := rfl

@[simp] theorem constants_null : (Expr.constant none type mapping).constants = [] := rfl

@[simp] theorem constants_unary (op : UnaryOp) (operand : Expr) :
    (Expr.unary op operand type mapping).constants = operand.constants := rfl

@[simp] theorem constants_binary (op : BinaryOp) (left right : Expr) :
    (Expr.binary op left right type mapping).constants = left.constants ++ right.constants :=
  List.filterMap_append

@[simp] theorem constants_call (function : String) (arguments : List Expr) :
    (Expr.call function arguments type mapping).constants = arguments.flatMap constants := by
  show (nodesIn arguments).filterMap constant? = _
  rw [nodesIn_eq_flatMap, List.filterMap_flatMap]
  rfl

@[simp] theorem constants_attr (ref : AttributeRef) : (Expr.attr ref).constants = [] := rfl

@[simp] theorem functions_unary (op : UnaryOp) (operand : Expr) :
    (Expr.unary op operand type mapping).functions = operand.functions := rfl

@[simp] theorem functions_binary (op : BinaryOp) (left right : Expr) :
    (Expr.binary op left right type mapping).functions = left.functions ++ right.functions :=
  List.filterMap_append

@[simp] theorem functions_call (function : String) (arguments : List Expr) :
    (Expr.call function arguments type mapping).functions =
      function :: arguments.flatMap functions := by
  show function :: (nodesIn arguments).filterMap function? = _
  rw [nodesIn_eq_flatMap, List.filterMap_flatMap]
  rfl

end

theorem attributesIn_eq_flatMap (es : List Expr) : attributesIn es = es.flatMap attributes := by
  induction es with
  | nil => rfl
  | cons e es ih => rw [attributesIn, ih, List.flatMap_cons]

/-- Null is no constant to hand over. -/
theorem constants_of_isNull {e : Expr} (h : e.isNull = true) : e.constants = [] := by
  unfold isNull at h
  split at h
  · rfl
  · cases h

/-- Null reads no attribute. -/
theorem attributes_of_isNull {e : Expr} (h : e.isNull = true) : e.attributes = [] := by
  unfold isNull at h
  split at h
  · rfl
  · cases h

end Expr

end EntityQuery
