import EntityQuery.Proofs.Rendering

/-!
Chains in two contexts at once.

A context is asked in three places: for the entity that a chain starts from, for the property that a
label means on a row, and for what becomes of a call. If a second context answers as the first one
does, both do the same on every chain, with the same attributes in use at every moment. It may also
answer where the first has an obstacle. From there on the two need not go the same way, but then the
chain fails in the first of them, and fails because of such an obstacle.

* `KeepsPace` -- one computation does what another does, unless that one fails for a reason that is
  excused;
* `Context.Agrees` -- the same of the answers of a context;
* `Context.Agrees.lower`, `Context.Agrees.bind` -- **then lowering and projecting keep pace**;
* `Context.Agrees.apply`, `Context.Agrees.applyAll` -- one operator, and operators in turn;
* `Context.Agrees.run` -- whole chains, with `run_ok` and `run_eq` for those that do the same.
-/
namespace EntityQuery

/-! ## 1. Computations in step -/

/-- From every state the second computation comes to what the first comes to, result and state,
    unless the first one fails for a reason that is excused. -/
def KeepsPace {σ ε α : Type} (excused : ε → Prop) (x y : σ → Except ε α × σ) : Prop :=
  ∀ s, y s = x s ∨ ∃ e s', x s = (.error e, s') ∧ excused e

namespace KeepsPace

variable {ε α β : Type} {excused : ε → Prop}

theorem refl {σ : Type} (x : σ → Except ε α × σ) : KeepsPace excused x x := fun _ => .inl rfl

theorem lift {r r' : Except ε α} (h : r' = r ∨ ∃ e, r = .error e ∧ excused e) :
    KeepsPace excused (liftM r : Using ε α) (liftM r' : Using ε α) := by
  intro memo
  rcases h with rfl | ⟨e, rfl, he⟩
  · exact .inl rfl
  · exact .inr ⟨e, memo, rfl, he⟩

theorem bind {x y : Using ε α} {f g : α → Using ε β} (hxy : KeepsPace excused x y)
    (hfg : ∀ a, KeepsPace excused (f a) (g a)) : KeepsPace excused (x >>= f) (y >>= g) := by
  intro memo
  show ExceptT.bindCont g (y memo).1 (y memo).2 = ExceptT.bindCont f (x memo).1 (x memo).2 ∨
    ∃ e memo', ExceptT.bindCont f (x memo).1 (x memo).2 = (.error e, memo') ∧ excused e
  rcases hxy memo with heq | ⟨e, memo', hfails, he⟩
  · -- both are in the same state, and go on from there if there is a result
    rw [heq]
    generalize x memo = after
    obtain ⟨r, memo'⟩ := after
    cases r with
    | error e => exact .inl rfl
    | ok a => exact hfg a memo'
  · rw [hfails]
    exact .inr ⟨e, memo', rfl, he⟩

end KeepsPace

/-- A projection that fails because of an excused obstacle. -/
def BindFault.Excused (excused : Obstacle → Prop) : BindFault → Prop
  | .obstacle cause => excused cause
  | .lostRow _ _ => False

/-- A chain that fails because of an excused obstacle. -/
def Failure.Excused (excused : Obstacle → Prop) : Failure → Prop
  | .blocked _ cause => excused cause
  | _ => False

/-! ## 2. Contexts that agree -/

/-- The second context answers as the first one does, and may answer a call also where the first one
    has an obstacle that is excused. -/
structure Context.Agrees (excused : Obstacle → Prop) (ctx ctx' : Context) : Prop where
  source : ∀ entity, ctx'.source entity = ctx.source entity
  rowProperty : ∀ shape entity path label,
    ctx'.rowProperty shape entity path label = ctx.rowProperty shape entity path label
  lowerCall : ∀ receiver method arguments,
    ctx'.lowerCall receiver method arguments = ctx.lowerCall receiver method arguments ∨
      ∃ cause, ctx.lowerCall receiver method arguments = .error cause ∧ excused cause

namespace Context.Agrees

variable {excused : Obstacle → Prop} {ctx ctx' : Context}

mutual
/-- **Lowering keeps pace.** -/
theorem lower (h : Agrees excused ctx ctx') (shape : Shape) (t : Term) :
    KeepsPace excused (ctx.lower shape t) (ctx'.lower shape t) := by
  match t with
  | .member target label =>
    rw [Context.lower, Context.lower]
    split
    · rw [h.rowProperty]
      exact .refl _
    · rename_i members ht
      split
      · rename_i selected hs
        have := Term.sizeOf_selected_lt ht hs
        exact lower h shape selected
      · exact .refl _
    · exact .refl _
  | .unary op operand =>
    rw [Context.lower, Context.lower]
    exact .bind (lower h shape operand) fun _ => .refl _
  | .binary op left right =>
    rw [Context.lower, Context.lower]
    exact .bind (lower h shape left) fun _ => .bind (lower h shape right) fun _ => .refl _
  | .call receiver method arguments =>
    rw [Context.lower, Context.lower]
    exact .bind (lower h shape receiver) fun _ => .bind (lowerAll h shape arguments) fun _ =>
      .lift (h.lowerCall _ _ _)
  | .constant (some _) _ | .constant none _ | .parameter _ | .ownerCall _ _ | .object _
  | .conditional _ _ _ | .lambda _ _ | .entity _ _ | .binding _ =>
    -- the context is not asked
    rw [Context.lower, Context.lower]
    exact .refl _
termination_by sizeOf t

theorem lowerAll (h : Agrees excused ctx ctx') (shape : Shape) (ts : List Term) :
    KeepsPace excused (ctx.lowerAll shape ts) (ctx'.lowerAll shape ts) := by
  match ts with
  | [] =>
    rw [Context.lowerAll, Context.lowerAll]
    exact .refl _
  | t :: rest =>
    rw [Context.lowerAll, Context.lowerAll]
    exact .bind (lower h shape t) fun _ => .bind (lowerAll h shape rest) fun _ => .refl _
termination_by sizeOf ts
end

theorem bindValue (h : Agrees excused ctx ctx') (shape : Shape) (path : Path) (t : Term) :
    KeepsPace (BindFault.Excused excused) (ctx.bindValue shape path t)
      (ctx'.bindValue shape path t) := by
  intro memo
  unfold Context.bindValue
  rcases h.lower shape t memo with heq | ⟨cause, memo', hfails, hcause⟩
  · rw [heq]
    exact .inl rfl
  · rw [hfails]
    exact .inr ⟨.obstacle cause, memo', rfl, hcause⟩

mutual
/-- **Projecting keeps pace.** -/
theorem bind (h : Agrees excused ctx ctx') (shape : Shape) (path : Path) (t : Term) :
    KeepsPace (BindFault.Excused excused) (ctx.bind shape path t) (ctx'.bind shape path t) := by
  rw [Context.bind, Context.bind]
  split
  · rename_i members ht
    have := Term.sizeOf_members_lt ht
    exact .bind (bindMembers h shape path members) fun _ => .refl _
  · exact .refl _
  · exact h.bindValue shape path _
termination_by sizeOf t

theorem bindMembers (h : Agrees excused ctx ctx') (shape : Shape) (path : Path)
    (members : List (String × Term)) :
    KeepsPace (BindFault.Excused excused) (ctx.bindMembers shape path members)
      (ctx'.bindMembers shape path members) := by
  match members with
  | [] =>
    rw [Context.bindMembers, Context.bindMembers]
    exact .refl _
  | (label, t) :: rest =>
    rw [Context.bindMembers, Context.bindMembers]
    exact .bind (bind h shape (path.append label) t) fun _ =>
      .bind (bindMembers h shape path rest) fun _ => .refl _
termination_by sizeOf members
end

/-! ## 3. Operators and chains -/

theorem filter (h : Agrees excused ctx ctx') (l : Lambda) :
    KeepsPace (Failure.Excused excused) (ctx.filter l) (ctx'.filter l) := by
  intro q
  unfold Context.filter
  rcases h.lower q.shape (l.apply q.row) q.shape.memo with heq | ⟨cause, memo, hfails, hcause⟩
  · rw [heq]
    exact .inl rfl
  · rw [hfails]
    exact .inr ⟨.blocked l cause, _, rfl, hcause⟩

theorem project (h : Agrees excused ctx ctx') (l : Lambda) :
    KeepsPace (Failure.Excused excused) (ctx.project l) (ctx'.project l) := by
  intro q
  unfold Context.project
  rcases h.bind q.shape .root (l.apply q.row) q.shape.memo with heq | ⟨fault, memo, hfails, hfault⟩
  · rw [heq]
    exact .inl rfl
  · rw [hfails]
    cases fault with
    | obstacle cause => exact .inr ⟨.blocked l cause, _, rfl, hfault⟩
    | lostRow entity path => exact hfault.elim

/-- **One operator keeps pace.** -/
theorem apply (h : Agrees excused ctx ctx') (op : Operator) :
    KeepsPace (Failure.Excused excused) (ctx.apply op) (ctx'.apply op) := by
  cases op with
  | filter l => exact h.filter l
  | project l => exact h.project l
  | _ => exact .refl _

theorem applyAll (h : Agrees excused ctx ctx') (ops : List Operator) :
    KeepsPace (Failure.Excused excused) (ctx.applyAll ops) (ctx'.applyAll ops) := by
  induction ops with
  | nil => exact .refl _
  | cons op rest ih =>
    intro q
    unfold Context.applyAll
    rcases h.apply op q with heq | ⟨failure, q', hfails, hfailure⟩
    · rw [heq]
      generalize ctx.apply op q = after
      obtain ⟨r, q'⟩ := after
      cases r with
      | error failure => exact .inl rfl
      | ok _ => exact ih q'
    · rw [hfails]
      exact .inr ⟨failure, q', rfl, hfailure⟩

/-- **Chains do the same in both contexts**, unless they fail in the first one because of an
    obstacle that is excused. -/
theorem run (h : Agrees excused ctx ctx') (chain : Chain) :
    ctx'.run chain = ctx.run chain ∨
      ∃ failure, ctx.run chain = .error failure ∧ failure.Excused excused := by
  cases chain with
  | nil => exact .inl rfl
  | cons op ops =>
    cases op with
    | source entity =>
      cases hs : ctx.source entity with
      | error failure =>
        have hs' : ctx'.source entity = .error failure := (h.source entity).trans hs
        exact .inl ((run_of_source_error hs' ops).trans (run_of_source_error hs ops).symm)
      | ok start =>
        have hs' : ctx'.source entity = .ok start := (h.source entity).trans hs
        rcases h.applyAll ops start with heq | ⟨failure, q, hfails, hfailure⟩
        · left
          rcases happly : ctx.applyAll ops start with ⟨outcome, q⟩
          have happly' := heq.trans happly
          cases outcome with
          | error failure =>
            exact (run_of_applyAll_error hs' happly').trans (run_of_applyAll_error hs happly).symm
          | ok _ => exact (run_of_applyAll hs' happly').trans (run_of_applyAll hs happly).symm
        · exact .inr ⟨failure, run_of_applyAll_error hs hfails, hfailure⟩
    | _ => exact .inl rfl

/-- A chain that comes to a query in the first context comes to the same query in the second. -/
theorem run_ok (h : Agrees excused ctx ctx') {chain : Chain} {q : Query}
    (hrun : ctx.run chain = .ok q) : ctx'.run chain = .ok q := by
  rcases h.run chain with heq | ⟨failure, hfails, _⟩
  · rw [heq, hrun]
  · cases hrun.symm.trans hfails

/-- Where nothing is excused, all chains do the same. -/
theorem run_eq (h : Agrees (fun _ => False) ctx ctx') (chain : Chain) :
    ctx'.run chain = ctx.run chain := by
  rcases h.run chain with heq | ⟨failure, _, hfailure⟩
  · exact heq
  · cases failure <;> exact hfailure.elim

end Context.Agrees

end EntityQuery
