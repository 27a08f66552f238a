import EntityQuery.Proofs.Reading.Scalar

/-!
Expressions and terms read over any domain of values.

An expression of the store reads the attributes of a row. A term reads the members of a row by the
names of their properties, and knows more operations than the store does: a plus sign and a cast
change nothing, and a checked negation is a negation.

* `Interpretation` -- values for literals, and the operations of the store;
* `Expr.eval` -- the value of an expression on a row of attributes;
* `Interpretation.reading` -- terms over the same values and the same row;
* `Interpretation.follows_reading` -- **the reading over expressions follows the one over values**.
-/
namespace EntityQuery

universe u

/-- Values for literals and for null, and the operations of the store on values. -/
structure Interpretation (α : Type u) where
  literal : Literal → α
  null : α
  not : α → α
  negate : α → α
  binary : Expr.BinaryOp → α → α → α
  beginsWith : α → α → α
  contains : α → α → α

variable {α : Type u}

/-! ## 1. Expressions over values -/

namespace Expr

variable (I : Interpretation α) (row : String → α)

/-- The value of an expression on a row of attributes. A whole row is not a value, and no function
    but the two on texts has a meaning. -/
def eval : Expr → Option α
  | .constant (some value) _ _ => some (I.literal value)
  | .constant none _ _ => some I.null
  | .unary .not operand _ _ => (eval operand).map I.not
  | .unary .negate operand _ _ => (eval operand).map I.negate
  | .binary op left right _ _ =>
    (eval left).bind fun a => (eval right).map fun b => I.binary op a b
  | .call function [left, right] _ _ =>
    (eval left).bind fun a => (eval right).bind fun b =>
      if function = "BEGINS_WITH" then some (I.beginsWith a b)
      else if function = "CONTAINS" then some (I.contains a b)
      else none
  | .call _ _ _ _ => none
  | .attr ref => some (row ref.property.storedAs)
  | .row _ => none

/-- An expression has a value on a row of attributes. -/
def HasValue (e : Expr) (a : α) : Prop := e.eval I row = some a

/-- A mapping for a constant does not change its value. -/
@[simp] theorem eval_assume (given : Option Mapping) (e : Expr) :
    (e.assume given).eval I row = e.eval I row := by
  unfold assume
  split
  · rename_i value type
    cases value <;> rfl
  · rfl

variable {I row} {left right : Expr} {a b : α}

theorem HasValue.ofBinary (hl : left.HasValue I row a) (hr : right.HasValue I row b)
    (op : Expr.BinaryOp) : (ofBinary op left right).HasValue I row (I.binary op a b) := by
  unfold HasValue at hl hr ⊢
  unfold Expr.ofBinary
  split
  · simp [join, eval, hl, hr]
  · simp [compare, join, eval, hl, hr]

theorem HasValue.beginsWith (hl : left.HasValue I row a) (hr : right.HasValue I row b) :
    (beginsWith left right).HasValue I row (I.beginsWith a b) := by
  unfold HasValue at hl hr ⊢
  simp [Expr.beginsWith, ofCall, eval, hl, hr]

theorem HasValue.contains (hl : left.HasValue I row a) (hr : right.HasValue I row b) :
    (contains left right).HasValue I row (I.contains a b) := by
  unfold HasValue at hl hr ⊢
  simp [Expr.contains, ofCall, eval, hl, hr]

end Expr

namespace Interpretation

variable (I : Interpretation α)

/-- The values joined from the first to the last. -/
def conjunction : List α → Option α
  | [] => none
  | a :: rest => some (rest.foldl (I.binary .and) a)

/-! ## 2. Terms over values -/

/-- An operator before an operand. A plus sign and a cast change nothing. -/
def unary : UnaryOp → α → Option α
  | .not, a => some (I.not a)
  | .negate, a | .negateChecked, a => some (I.negate a)
  | .plus, a | .convert _, a => some a
  | .complement, _ | .arrayLength, _ => none

/-- An operator between two operands. Arithmetic has no meaning. -/
def operator : BinaryOp → α → α → Option α
  | .and, a, b => some (I.binary .and a b)
  | .or, a, b => some (I.binary .or a b)
  | .equal, a, b => some (I.binary .equal a b)
  | .notEqual, a, b => some (I.binary .notEqual a b)
  | .less, a, b => some (I.binary .less a b)
  | .lessEqual, a, b => some (I.binary .lessEqual a b)
  | .greater, a, b => some (I.binary .greater a b)
  | .greaterEqual, a, b => some (I.binary .greaterEqual a b)
  | _, _, _ => none

/-- A call of a method on a text, with one argument. -/
def call (receiver : α) (method : Method) : List α → Option α
  | [argument] =>
    if method.name = "StartsWith" then some (I.beginsWith receiver argument)
    else if method.name = "Contains" then some (I.contains receiver argument)
    else none
  | _ => none

/-- Terms over values. The rows are known by their entities: a member of a row is the attribute of
    the property with that name. What is bound at a path is given. -/
def reading (row : String → α) (rows : Path → Option Entity) (values : Path → Option α) :
    Reading α (Option Entity) where
  literal := I.literal
  null _ := I.null
  field r label := r.bind fun e => (e.find? label).map fun p => row p.attributeName
  unary := I.unary
  binary := I.operator
  call := I.call
  row _ path := rows path
  bound := values

/-- Terms as a query writes them: nothing is bound at a path. -/
def plain (row : String → α) : Reading α (Option Entity) :=
  I.reading row (fun _ => none) fun _ => none

end Interpretation

/-! ## 3. The reading over expressions follows the one over values -/

/-- The row of an entity as terms name it. -/
def NamedRow.of (e : Entity) : NamedRow := { entity := e.name, ref := some (.of e) }

/-- The row of an entity, as terms name it and as values know it. -/
def NamedRow.Is (root : Entity) (r : NamedRow) (s : Option Entity) : Prop :=
  r = .of root ∧ s = some root

theorem NamedRow.property?_of {model : Model} {root : Entity}
    (h : model.find? root.name = some root) (label : String) :
    (NamedRow.of root).property? model label = root.find? label := by
  simp [NamedRow.property?, NamedRow.of, RowRef.of, h]

namespace Interpretation

variable (I : Interpretation α) (row : String → α)

theorem unary_of_lower {op : UnaryOp} {operand e : Expr} {a : α}
    (ha : operand.HasValue I row a) (h : (op.lower default operand).toOption = some e) :
    ∃ b, I.unary op a = some b ∧ e.HasValue I row b := by
  unfold Expr.HasValue at ha
  rcases UnaryOp.lower_cases h with ⟨rfl, rfl⟩ | ⟨rfl | rfl, rfl⟩ | ⟨rfl | ⟨target, rfl⟩, rfl⟩
  · exact ⟨I.not a, rfl, by simp [Expr.HasValue, Expr.ofUnary, Expr.eval, ha]⟩
  · exact ⟨I.negate a, rfl, by simp [Expr.HasValue, Expr.ofUnary, Expr.eval, ha]⟩
  · exact ⟨I.negate a, rfl, by simp [Expr.HasValue, Expr.ofUnary, Expr.eval, ha]⟩
  · exact ⟨a, rfl, ha⟩
  · exact ⟨a, rfl, ha⟩

theorem operator_of_lower {op : BinaryOp} {left right e : Expr} {a b : α}
    (ha : left.HasValue I row a) (hb : right.HasValue I row b)
    (h : (op.lower left right).toOption = some e) :
    ∃ c, I.operator op a b = some c ∧ e.HasValue I row c := by
  obtain ⟨op', hop, rfl⟩ := BinaryOp.lower_cases h
  refine ⟨I.binary op' a b, ?_, ha.ofBinary hb op'⟩
  cases op <;> cases hop <;> rfl

theorem call_of_lowerCall {model : Model} {receiver e : Expr} {method : Method}
    {arguments : List Expr} {a : α} {as : List α} (ha : receiver.HasValue I row a)
    (has : List.Forall₂ (Expr.HasValue I row) arguments as)
    (h : (model.context.lowerCall receiver method arguments).toOption = some e) :
    ∃ b, I.call a method as = some b ∧ e.HasValue I row b := by
  obtain ⟨argument, rfl, hmethod⟩ := Model.lowerCall_cases h
  cases has with
  | @cons _ b _ _ hb hnil =>
    cases hnil
    rcases hmethod with ⟨hname, rfl⟩ | ⟨hname, rfl⟩
    · exact ⟨I.beginsWith a b, by simp [call, hname], ha.beginsWith hb⟩
    · exact ⟨I.contains a b, by simp [call, hname], ha.contains hb⟩

/-- **The reading over expressions follows the one over values**: each operation of terms has the
    value of the expression it is lowered to. Of what is bound at paths nothing is said. -/
theorem follows_reading {model : Model} {root : Entity} {shape : Shape}
    (h : shape.Rooted model root) :
    Reading.Follows (Expr.HasValue I row) (NamedRow.Is root)
      ((model.context.reading shape).withPlaces (fun _ _ => .of root) fun _ => none)
      (I.reading row (fun _ => some root) fun _ => none) where
  literal _ := rfl
  null _ := rfl
  field r s label e hrs he := by
    obtain ⟨rfl, rfl⟩ := hrs
    obtain ⟨p, hp, rfl⟩ := Option.map_eq_some_iff.mp he
    have hfind : root.find? label = some p := by
      rw [← NamedRow.property?_of h.found]
      exact hp
    exact ⟨row p.attributeName, by simp [reading, hfind], rfl⟩
  unary op e a e' ha he' := I.unary_of_lower row ha he'
  binary op e₁ a₁ e₂ a₂ e' h₁ h₂ he' := I.operator_of_lower row h₁ h₂ he'
  call e a method es as e' ha has he' := I.call_of_lowerCall row ha has he'
  row _ _ := ⟨rfl, rfl⟩
  bound _ _ he := by cases he

/-- **What a plain lambda stands for over expressions is followed by what it stands for over
    values.** -/
theorem follows_lambda {model : Model} {root : Entity} {shape : Shape}
    (h : shape.Rooted model root) {l : Lambda} (hl : l.body.isPlain = true)
    {c : Content Expr NamedRow} {v : Content α (Option Entity)}
    (hcv : Content.Follows (Expr.HasValue I row) (NamedRow.Is root) c v) :
    Content.Follows (Expr.HasValue I row) (NamedRow.Is root)
      (l.content (model.context.reading shape) c) (l.content (I.plain row) v) := by
  have hscope : ∀ name, Content.Follows (Expr.HasValue I row) (NamedRow.Is root)
      (Scope.empty.set l.parameter c name) (Scope.empty.set l.parameter v name) := by
    intro name
    unfold Scope.set
    split
    · exact hcv
    · exact .nothing _
  -- nothing bound at a path is of account here, so each path may stand for the root's row
  have hfollows := Term.follows_content (I.follows_reading row h) hscope l.body
  rw [Term.content_of_isPlain _ _ _ _ hl] at hfollows
  have hplain : l.body.content (I.reading row (fun _ => some root) fun _ => none) _ =
      l.body.content (I.plain row) (Scope.empty.set l.parameter v) :=
    Term.content_of_isPlain (I.plain row) _ (fun _ _ => some root) (fun _ => none) hl
  rw [hplain] at hfollows
  exact hfollows

end Interpretation

end EntityQuery
