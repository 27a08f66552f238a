import EntityQuery.Query

/-!
What lowering and projecting do to the attributes in use.

* `Context.Closed` -- a property of computations that the single steps of lowering have, and that is
  kept when one computation follows another;
* `Context.Closed.lower`, `Context.Closed.bind` -- **lowering and projecting then have it too**;
* `Retains` -- a computation keeps what holds of the attributes in use;
* `Grows` -- what was in use before comes first afterwards, whether the computation succeeds or
  meets an obstacle: lowering and projecting only take attributes into use.
-/
namespace EntityQuery

/-! ## 1. Properties of computations -/

namespace Using

variable {ε α β : Type} {x : Using ε α} {memo memo' : Memo}

theorem bind_of_ok {a : α} (h : x memo = (.ok a, memo')) (f : α → Using ε β) :
    (x >>= f) memo = f a memo' := by
  show ExceptT.bindCont f (x memo).1 (x memo).2 = _
  rw [h]
  rfl

theorem bind_of_error {e : ε} (h : x memo = (.error e, memo')) (f : α → Using ε β) :
    (x >>= f) memo = (.error e, memo') := by
  show ExceptT.bindCont f (x memo).1 (x memo).2 = _
  rw [h]
  rfl

theorem adapt_apply {ε' : Type} (g : ε → ε') (x : Using ε α) (memo : Memo) :
    (ExceptT.adapt g x : Using ε' α) memo = ((x memo).1.mapError g, (x memo).2) := rfl

end Using

/-- A property that the steps of lowering over a shape have, and that is kept when one computation
    follows another. -/
structure Context.Closed (ctx : Context) (shape : Shape) (P : ∀ ε α : Type, Using ε α → Prop) :
    Prop where
  lift : ∀ {ε α : Type} (e : Except ε α), P ε α (liftM e)
  use : ∀ {ε : Type} {entity : String} {path : Path} {label : String} {property : Property},
    ctx.rowProperty shape entity path label = .ok property →
      P ε AttributeRef (useAttribute property shape.source)
  bind : ∀ {ε α β : Type} {x : Using ε α} {f : α → Using ε β}, P ε α x →
    (∀ memo a memo', x memo = (.ok a, memo') → P ε β (f a)) → P ε β (x >>= f)

namespace Context.Closed

variable {ctx : Context} {shape : Shape} {P : ∀ ε α : Type, Using ε α → Prop} {ε α β : Type}

theorem pure (h : ctx.Closed shape P) (a : α) : P ε α (Pure.pure a) := h.lift (.ok a)

theorem throw (h : ctx.Closed shape P) (e : ε) : P ε α (MonadExcept.throw e) := h.lift (.error e)

theorem andThen (h : ctx.Closed shape P) {x : Using ε α} {f : α → Using ε β} (hx : P ε α x)
    (hf : ∀ a, P ε β (f a)) : P ε β (x >>= f) := h.bind hx fun _ a _ _ => hf a

mutual
/-- **Lowering has every property that its steps have.** -/
theorem lower (h : ctx.Closed shape P) (t : Term) : P Obstacle Expr (ctx.lower shape t) := by
  match t with
  | .constant (some _) _ | .constant none _ =>
    rw [Context.lower]
    exact h.pure _
  | .member target label =>
    rw [Context.lower]
    split
    · refine h.bind (h.lift _) fun memo property memo' hproperty => ?_
      exact h.andThen (h.use (congrArg Prod.fst hproperty)) fun _ => h.pure _
    · rename_i members ht
      split
      · rename_i selected hs
        have := Term.sizeOf_selected_lt ht hs
        exact lower h selected
      · exact h.throw _
    · exact h.throw _
  | .unary op operand =>
    rw [Context.lower]
    exact h.andThen (lower h operand) fun _ => h.lift _
  | .binary op left right =>
    rw [Context.lower]
    exact h.andThen (lower h left) fun _ => h.andThen (lower h right) fun _ => h.lift _
  | .call receiver method arguments =>
    rw [Context.lower]
    exact h.andThen (lower h receiver) fun _ => h.andThen (lowerAll h arguments) fun _ => h.lift _
  | .parameter _ | .ownerCall _ _ | .object _ | .conditional _ _ _ | .lambda _ _ | .entity _ _ =>
    rw [Context.lower]
    exact h.throw _
  | .binding _ =>
    rw [Context.lower]
    exact h.lift _
termination_by sizeOf t

theorem lowerAll (h : ctx.Closed shape P) (ts : List Term) :
    P Obstacle (List Expr) (ctx.lowerAll shape ts) := by
  match ts with
  | [] =>
    rw [Context.lowerAll]
    exact h.pure _
  | t :: rest =>
    rw [Context.lowerAll]
    exact h.andThen (lower h t) fun _ => h.andThen (lowerAll h rest) fun _ => h.pure _
termination_by sizeOf ts
end

end Context.Closed

/-- A value is bound as it is lowered; its obstacle is the fault. -/
theorem Context.bindValue_eq (ctx : Context) (shape : Shape) (path : Path) (t : Term) :
    ctx.bindValue shape path t = (do
      let e ← ExceptT.adapt .obstacle (ctx.lower shape t)
      return { row := .binding path, entries := [(path, e)] }) := by
  funext memo
  have hadapt := Using.adapt_apply BindFault.obstacle (ctx.lower shape t) memo
  rcases hl : ctx.lower shape t memo with ⟨r, memo'⟩
  rw [hl] at hadapt
  cases r with
  | ok e =>
    rw [Using.bind_of_ok hadapt]
    simp only [bindValue, hl]
    rfl
  | error cause =>
    rw [Using.bind_of_error hadapt]
    simp only [bindValue, hl]

namespace Context.Closed

variable {ctx : Context} {shape : Shape} {P : ∀ ε α : Type, Using ε α → Prop}

mutual
/-- **Projecting has every property that the steps of lowering have**, if it does not hang on the
    name of an obstacle. -/
theorem project (h : ctx.Closed shape P)
    (hadapt : ∀ {x : Using Obstacle Expr}, P Obstacle Expr x →
      P BindFault Expr (ExceptT.adapt .obstacle x)) (path : Path) (t : Term) :
    P BindFault (Bound Term) (ctx.bind shape path t) := by
  rw [Context.bind]
  split
  · rename_i members ht
    have := Term.sizeOf_members_lt ht
    exact h.andThen (projectMembers h hadapt path members) fun _ => h.pure _
  · exact h.lift _
  · rw [bindValue_eq]
    exact h.andThen (hadapt (h.lower _)) fun _ => h.pure _
termination_by sizeOf t

theorem projectMembers (h : ctx.Closed shape P)
    (hadapt : ∀ {x : Using Obstacle Expr}, P Obstacle Expr x →
      P BindFault Expr (ExceptT.adapt .obstacle x)) (path : Path) (members : List (String × Term)) :
    P BindFault (Bound (List (String × Term))) (ctx.bindMembers shape path members) := by
  match members with
  | [] =>
    rw [bindMembers]
    exact h.pure _
  | (label, t) :: rest =>
    rw [bindMembers]
    exact h.andThen (project h hadapt (path.append label) t) fun _ =>
      h.andThen (projectMembers h hadapt path rest) fun _ => h.pure _
termination_by sizeOf members
end

end Context.Closed

/-! ## 2. Attributes in use -/

/-- What holds of the attributes in use before a computation holds of them afterwards, whether it
    succeeds or fails. -/
def Retains {ε α : Type} (I : Memo → Prop) (x : Using ε α) : Prop :=
  ∀ memo : Memo, I memo → I (x memo).2

/-- What is in use before is in use afterwards, in the same order and first. -/
def Grows {ε α : Type} (x : Using ε α) : Prop := ∀ memo : Memo, memo <+: (x memo).2

namespace Context

variable {I : Memo → Prop} {shape : Shape}

/-- What every use of an attribute keeps is closed. -/
theorem closed_retains (ctx : Context)
    (hI : ∀ memo p, I memo → I (Memo.use memo p shape.source).2) :
    ctx.Closed shape fun _ _ x => Retains I x where
  lift _ := fun _ hmemo => hmemo
  use _ := fun memo hmemo => hI memo _ hmemo
  bind {ε α β x f} hx hf := by
    intro memo hmemo
    have h := hx memo hmemo
    rcases hafter : x memo with ⟨r, memo'⟩
    rw [hafter] at h
    cases r with
    | error e =>
      rw [Using.bind_of_error hafter]
      exact h
    | ok a =>
      rw [Using.bind_of_ok hafter]
      exact hf memo a memo' hafter memo' h

/-- **What every use of an attribute keeps, lowering keeps.** -/
theorem retains_lower (hI : ∀ memo p, I memo → I (Memo.use memo p shape.source).2) (ctx : Context)
    (t : Term) : Retains I (ctx.lower shape t) := (ctx.closed_retains hI).lower t

/-- **What every use of an attribute keeps, projecting keeps.** -/
theorem retains_bind (hI : ∀ memo p, I memo → I (Memo.use memo p shape.source).2) (ctx : Context)
    (path : Path) (t : Term) : Retains I (ctx.bind shape path t) :=
  (ctx.closed_retains hI).project (fun hx memo hmemo => hx memo hmemo) path t

theorem grows_lower (ctx : Context) (shape : Shape) (t : Term) : Grows (ctx.lower shape t) :=
  fun memo => retains_lower (fun memo' p h => h.trans (memo'.prefix_use p _)) ctx t memo
    (List.prefix_refl memo)

theorem grows_bind (ctx : Context) (shape : Shape) (path : Path) (t : Term) :
    Grows (ctx.bind shape path t) :=
  fun memo => retains_bind (fun memo' p h => h.trans (memo'.prefix_use p _)) ctx path t memo
    (List.prefix_refl memo)

end Context

end EntityQuery
