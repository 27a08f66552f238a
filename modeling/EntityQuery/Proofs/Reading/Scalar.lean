import EntityQuery.Proofs.Reading.Binding

/-!
The expressions of the rules for calls that are built in.

* `Model.context` -- a model with no rules for calls but the one for texts;
* `Expr.isScalar` -- no whole row inside, and no function but the two on texts;
* `Model.keeps_isScalar` -- **without further rules, all that terms stand for is scalar**, and the
  rows are those of the source.
-/
namespace EntityQuery

/-- A model with the built-in rules for calls only. -/
def Model.context (model : Model) : Context := { model := model }

namespace Expr

/-! ## 1. Scalar expressions -/

/-- An expression without whole rows, whose functions are the two on texts. -/
def isScalar : Expr → Bool
  | .constant _ _ _ => true
  | .unary _ operand _ _ => isScalar operand
  | .binary _ left right _ _ => isScalar left && isScalar right
  | .call function [a, b] _ _ =>
    (function = "BEGINS_WITH" || function = "CONTAINS") && isScalar a && isScalar b
  | .call _ _ _ _ => false
  | .attr _ => true
  | .row _ => false

theorem isRow_of_isScalar {e : Expr} (h : e.isScalar = true) : e.isRow = false := by
  cases e with
  | row ref => cases h
  | _ => rfl

@[simp] theorem isScalar_assume (given : Option Mapping) (e : Expr) :
    (e.assume given).isScalar = e.isScalar := by
  unfold assume
  split <;> rfl

theorem isScalar_ofBinary {op : Expr.BinaryOp} {left right : Expr} (hl : left.isScalar = true)
    (hr : right.isScalar = true) : (ofBinary op left right).isScalar = true := by
  unfold ofBinary
  split
  · simp [join, isScalar, hl, hr]
  · simp [compare, join, isScalar, hl, hr]

theorem isScalar_beginsWith {left right : Expr} (hl : left.isScalar = true)
    (hr : right.isScalar = true) : (beginsWith left right).isScalar = true := by
  simp [beginsWith, ofCall, isScalar, hl, hr]

theorem isScalar_contains {left right : Expr} (hl : left.isScalar = true)
    (hr : right.isScalar = true) : (contains left right).isScalar = true := by
  simp [contains, ofCall, isScalar, hl, hr]

end Expr

/-! ## 2. The single steps of lowering -/

theorem BinaryOp.lower_cases {op : BinaryOp} {left right e : Expr}
    (h : (op.lower left right).toOption = some e) :
    ∃ op', op.lowered? = some op' ∧ e = .ofBinary op' left right := by
  unfold BinaryOp.lower at h
  split at h
  · rename_i op' hop
    cases h
    exact ⟨op', hop, rfl⟩
  · cases h

/-- What an operator before an operand becomes. -/
theorem UnaryOp.lower_cases {op : UnaryOp} {operand e : Expr}
    (h : (op.lower default operand).toOption = some e) :
    (op = .not ∧ e = .ofUnary .not operand) ∨
    ((op = .negate ∨ op = .negateChecked) ∧ e = .ofUnary .negate operand) ∨
    ((op = .plus ∨ ∃ target, op = .convert target) ∧ e = operand) := by
  cases op with
  | not =>
    cases h
    exact Or.inl ⟨rfl, rfl⟩
  | negate =>
    cases h
    exact Or.inr (Or.inl ⟨Or.inl rfl, rfl⟩)
  | negateChecked =>
    cases h
    exact Or.inr (Or.inl ⟨Or.inr rfl, rfl⟩)
  | plus =>
    cases h
    exact Or.inr (Or.inr ⟨Or.inl rfl, rfl⟩)
  | convert target =>
    unfold UnaryOp.lower at h
    simp only at h
    split at h
    · cases h
      exact Or.inr (Or.inr ⟨Or.inr ⟨target, rfl⟩, rfl⟩)
    · cases h
  | complement => cases h
  | arrayLength => cases h

/-- What a call becomes by the built-in rules. -/
theorem Model.lowerCall_cases {model : Model} {receiver e : Expr} {method : Method}
    {arguments : List Expr}
    (h : (model.context.lowerCall receiver method arguments).toOption = some e) :
    ∃ argument, arguments = [argument] ∧
      (method.name = "StartsWith" ∧ e = receiver.beginsWith argument ∨
        method.name = "Contains" ∧ e = receiver.contains argument) := by
  unfold Context.lowerCall at h
  split at h
  · rename_i d hd
    cases h
    have hd' : CallRule.strings model receiver method arguments = some e := by
      simpa [CallRule.first, context, CallRule.extended] using hd
    unfold CallRule.strings at hd'
    split at hd'
    · rename_i argument _ _
      split at hd'
      · split at hd'
        · rename_i hname
          cases hd'
          exact ⟨argument, rfl, Or.inl ⟨hname, rfl⟩⟩
        · split at hd'
          · rename_i hname
            cases hd'
            exact ⟨argument, rfl, Or.inr ⟨hname, rfl⟩⟩
          · cases hd'
      · cases hd'
    · cases hd'
  · cases h

/-- A value bound at a path is projected there and is no row. -/
theorem Shape.valueAt_cases {shape : Shape} {path : Path} {e : Expr}
    (h : (shape.valueAt path).toOption = some e) :
    shape.projection.get? path = some e ∧ e.isRow = false := by
  unfold valueAt at h
  split at h
  · rename_i d hget
    split at h
    · cases h
    · rename_i hrow
      cases h
      exact ⟨hget, by simpa using hrow⟩
  · cases h

/-! ## 3. All that is read -/

/-- A row that, if it is bound at all, is the one of an entity. -/
def NamedRow.IsOf (root : Entity) (r : NamedRow) : Prop :=
  ∀ ref, r.ref = some ref → ref = .of root

/-- A projection of scalar expressions and whole rows. -/
def Projection.Scalar (projection : Projection) : Prop :=
  ∀ path e, projection.get? path = some e → e.isRow = false → e.isScalar = true

/-- **Without further rules for calls, all that terms stand for is scalar**, and every row is the
    one of the source. -/
theorem Model.keeps_isScalar {model : Model} {root : Entity} {shape : Shape}
    (h : shape.Rooted model root) (hs : shape.projection.Scalar) :
    (model.context.reading shape).Keeps (fun e => e.isScalar = true) (NamedRow.IsOf root) where
  literal _ := rfl
  null _ := rfl
  field r label a _ ha := by
    obtain ⟨p, _, rfl⟩ := Option.map_eq_some_iff.mp ha
    rfl
  unary op a b ha hb := by
    rcases UnaryOp.lower_cases hb with ⟨_, rfl⟩ | ⟨_, rfl⟩ | ⟨_, rfl⟩
    · exact ha
    · exact ha
    · exact ha
  binary op a b c ha hb hc := by
    obtain ⟨op', _, rfl⟩ := BinaryOp.lower_cases hc
    exact Expr.isScalar_ofBinary ha hb
  call a method as b ha has hb := by
    obtain ⟨argument, rfl, ⟨_, rfl⟩ | ⟨_, rfl⟩⟩ := Model.lowerCall_cases hb
    · exact Expr.isScalar_beginsWith ha (has argument List.mem_cons_self)
    · exact Expr.isScalar_contains ha (has argument List.mem_cons_self)
  row name path ref href := h.rowAt?_eq href
  bound path a ha := by
    obtain ⟨hget, hrow⟩ := Shape.valueAt_cases ha
    exact hs path a hget hrow

end EntityQuery
