import EntityQuery.Proofs.Diagnostics.Outcomes
import EntityQuery.Proofs.Stages

/-!
Looking through object members, and translating without doing so first.

A projection resolves a term before it looks at it, and a filter translates it as it stands. The two
walk the same member accesses in different ways: resolving goes on with what the selected member
resolves to, while translating resolves the target alone and then starts afresh from the member that
is selected there. That member is a part of the resolved target and not of the term, so that
induction on the term does not reach it.

* `Term.selection_induction` -- induction along selections: a term stands, or it is a member access
  that comes to a smaller term;
* `Term.resolve_resolve` -- resolving twice is resolving once;
* `Context.lower_resolve`, `Context.visit_resolve` -- **a term is translated as what it resolves
  to**;
* `Term.selectsValue` -- the terms that come to neither an object construction nor a whole row;
* `Context.place_of_selectsValue` -- a projection translates such a term as it stands;
* `Context.selections_translate_alike` -- **so filters and projections treat them alike**.
-/
namespace EntityQuery

/-! ## 1. Selections -/

namespace Term

/-- **Induction along selections.** Resolving leaves a term as it stands, or the term is an access
    to a member of what its target resolves to; then it resolves to what that member resolves to. -/
theorem selection_induction {motive : Term → Prop}
    (stands : ∀ t : Term, t.resolve = t → motive t)
    (selects : ∀ (target selected : Term) (label : String) (members : List (String × Term)),
      target.resolve = .object members → memberNamed? label members = some selected →
      (Term.member target label).resolve = selected.resolve → motive selected →
      motive (.member target label)) (t : Term) : motive t := by
  match t with
  | .member target label =>
    have hrule := resolve_member target label
    cases htarget : target.resolve with
    | object members =>
      cases hs : memberNamed? label members with
      | some selected =>
        simp only [htarget, hs] at hrule
        have := sizeOf_selected_lt htarget hs
        exact selects target selected label members htarget hs hrule
          (selection_induction stands selects selected)
      | none =>
        simp only [htarget, hs] at hrule
        exact stands _ hrule
    | _ =>
      simp only [htarget] at hrule
      exact stands _ hrule
  | .object _ | .constant _ _ | .parameter _ | .unary _ _ | .binary _ _ _ | .call _ _ _
  | .ownerCall _ _ | .conditional _ _ _ | .lambda _ _ | .entity _ _ | .binding _ =>
    exact stands _ (resolve_of_not_member fun _ _ h => by cases h)
termination_by sizeOf t

/-- **Resolving twice is resolving once.** -/
theorem resolve_resolve (t : Term) : t.resolve.resolve = t.resolve := by
  induction t using selection_induction with
  | stands t h => rw [h, h]
  | selects target selected label members _ _ hrule ih => rw [hrule, ih]

/-- A term that comes to neither an object construction nor a whole row. -/
def selectsValue (t : Term) : Bool :=
  match t.resolve with
  | .object _ => false
  | .entity _ _ => false
  | _ => true

theorem ne_of_selectsValue {t : Term} (h : t.selectsValue = true) :
    (∀ members, t.resolve ≠ .object members) ∧ ∀ name path, t.resolve ≠ .entity name path := by
  unfold selectsValue at h
  split at h
  · cases h
  · cases h
  · rename_i hobject hrow
    exact ⟨hobject, hrow⟩

end Term

/-! ## 2. Translating what a term resolves to -/

namespace Context

variable {ctx : Context} {shape : Shape}

/-- **A term is lowered as what it resolves to**: to the same expression or obstacle, with the same
    attributes in use. -/
theorem lower_resolve (ctx : Context) (shape : Shape) (t : Term) :
    ctx.lower shape t.resolve = ctx.lower shape t := by
  induction t using Term.selection_induction with
  | stands t h => rw [h]
  | selects target selected label members htarget hs hrule ih =>
    rw [hrule, ih, lower_of_selected htarget hs]

/-- **A term is visited as what it resolves to**, details included. -/
theorem visit_resolve (ctx : Context) (t : Term) (s : Session) :
    ctx.visit t.resolve s = ctx.visit t s := by
  have hresolved := @visit_tracks ctx s.shape t.resolve s.shape.memo s.details
  rw [lower_resolve] at hresolved
  exact hresolved.trans (visit_tracks t s.shape.memo s.details).symm

theorem translate_resolve (ctx : Context) (t : Term) (s : Session) :
    ctx.translate t.resolve s = ctx.translate t s := ctx.visit_resolve t { s with details := none }

/-! ## 3. Values in filters and projections -/

/-- **A value is bound as it stands**, although a projection resolves it first. -/
theorem bind_of_selectsValue {t : Term} (h : t.selectsValue = true) (path : Path) :
    ctx.bind shape path t = ctx.bindValue shape path t := by
  obtain ⟨hobject, hrow⟩ := Term.ne_of_selectsValue h
  funext memo
  rw [bind_of_leaf hobject hrow, bindValue, bindValue, lower_resolve]

/-- The same with a translator that takes notes. -/
theorem place_of_selectsValue {t : Term} (h : t.selectsValue = true) (path : Path) (s : Session) :
    ctx.place path t s = ctx.placeValue path t s := by
  obtain ⟨hobject, hrow⟩ := Term.ne_of_selectsValue h
  have hleaf : ctx.place path t = ctx.placeValue path t.resolve := by
    rw [place]
    split <;> simp_all
  rw [hleaf, placeValue, placeValue, translate_resolve]

theorem filter_of_lower {l : Lambda} {q : Query} {e : Expr} {memo : Memo}
    (h : ctx.lower q.shape (l.apply q.row) q.shape.memo = (.ok e, memo)) :
    ctx.filter l q = (.ok (), q.filtered e memo) := by
  unfold filter
  rw [h]
  rfl

theorem project_of_lower {l : Lambda} {q : Query} (hl : (l.apply q.row).selectsValue = true)
    {e : Expr} {memo : Memo} (h : ctx.lower q.shape (l.apply q.row) q.shape.memo = (.ok e, memo)) :
    ctx.project l q = (.ok (), q.projected ⟨.binding .root, [(.root, e)]⟩ memo) := by
  unfold project
  rw [bind_of_selectsValue hl, bindValue, h]
  rfl

theorem filter_of_obstacle {l : Lambda} {q : Query} {cause : Obstacle} {memo : Memo}
    (h : ctx.lower q.shape (l.apply q.row) q.shape.memo = (.error cause, memo)) :
    ctx.filter l q = (.error (.blocked l cause), q) := by
  have hfails : (ctx.filter l q).1 = .error (.blocked l cause) := by
    unfold filter
    rw [h]
  exact Prod.ext hfails (filter_error (Prod.ext hfails rfl))

theorem project_of_obstacle {l : Lambda} {q : Query} (hl : (l.apply q.row).selectsValue = true)
    {cause : Obstacle} {memo : Memo}
    (h : ctx.lower q.shape (l.apply q.row) q.shape.memo = (.error cause, memo)) :
    ctx.project l q = (.error (.blocked l cause), q) := by
  have hfails : (ctx.project l q).1 = .error (.blocked l cause) := by
    unfold project
    rw [bind_of_selectsValue hl, bindValue, h]
    rfl
  exact Prod.ext hfails (project_error (Prod.ext hfails rfl))

end Context

/-! ## 4. Filters and projections alike -/

/-- The age of a person, as a member of an object in an object. -/
def Lambda.nestedAge : Lambda where
  parameter := "p"
  body := .member (.member (.object [("name", .member (.parameter "p") "Name"),
    ("inner", .object [("age", .member (.parameter "p") "Age")])]) "inner") "age"

namespace Context

/-- **Looking through members agrees with translating.** Whatever the rules for calls: resolving
    twice is resolving once; a term and what it resolves to are lowered alike, to the same
    expression or obstacle and with the same attributes in use, and visited alike, details included.
    So where a term comes to a value, a projection translates it at any path as it stands; and as
    the body of a lambda it is translated by a filter and by a projection to one expression with the
    same attributes in use, or both fail for the same cause and leave the query as it was. -/
theorem selections_translate_alike (ctx : Context) (t : Term) :
    t.resolve.resolve = t.resolve ∧
      (∀ shape : Shape, ctx.lower shape t.resolve = ctx.lower shape t) ∧
      (∀ s : Session, ctx.visit t.resolve s = ctx.visit t s) ∧
      (t.selectsValue = true →
        (∀ (path : Path) (s : Session), ctx.place path t s = ctx.placeValue path t s) ∧
        ∀ (l : Lambda) (q : Query), l.apply q.row = t →
          (∃ e memo, ctx.lower q.shape t q.shape.memo = (.ok e, memo) ∧
            ctx.filter l q = (.ok (), q.filtered e memo) ∧
            ctx.project l q = (.ok (), q.projected ⟨.binding .root, [(.root, e)]⟩ memo)) ∨
          ∃ cause memo, ctx.lower q.shape t q.shape.memo = (.error cause, memo) ∧
            ctx.filter l q = (.error (.blocked l cause), q) ∧
            ctx.project l q = (.error (.blocked l cause), q)) := by
  refine ⟨t.resolve_resolve, fun shape => ctx.lower_resolve shape t, ctx.visit_resolve t, fun ht =>
    ⟨place_of_selectsValue ht, ?_⟩⟩
  rintro l q rfl
  rcases hlower : ctx.lower q.shape (l.apply q.row) q.shape.memo with ⟨r, memo⟩
  cases r with
  | ok e => exact .inl ⟨e, memo, rfl, filter_of_lower hlower, project_of_lower ht hlower⟩
  | error cause =>
    exact .inr ⟨cause, memo, rfl, filter_of_obstacle hlower, project_of_obstacle ht hlower⟩

/-- A member two objects deep is the attribute it comes to, in a filter and in a projection. -/
theorem selections_translate_alike_of_nestedAge :
    (Lambda.nestedAge.apply (Query.of .person).row).resolve.text = "[Person @ <root>].Age" ∧
    ∃ e memo, e.text = "\"Person\".age" ∧ memo.length = 1 ∧
      Model.people.context.filter .nestedAge (.of .person) =
        (.ok (), (Query.of .person).filtered e memo) ∧
      Model.people.context.project .nestedAge (.of .person) =
        (.ok (), (Query.of .person).projected ⟨.binding .root, [(.root, e)]⟩ memo) := by
  have hvalue : (Lambda.nestedAge.apply (Query.of .person).row).selectsValue = true := by
    decide +kernel
  have hlower : (Model.people.context.lower (.of .person)
      (Lambda.nestedAge.apply (Query.of .person).row) []).1.toOption.map Expr.text =
        some "\"Person\".age" ∧
      (Model.people.context.lower (.of .person)
        (Lambda.nestedAge.apply (Query.of .person).row) []).2.length = 1 := by decide +kernel
  refine ⟨by decide +kernel, ?_⟩
  rcases ((selections_translate_alike Model.people.context _).2.2.2 hvalue).2 .nestedAge
    (.of .person) rfl with ⟨e, memo, h, hfilter, hproject⟩ | ⟨cause, memo, h, -, -⟩
  · have h' : Model.people.context.lower (.of .person)
        (Lambda.nestedAge.apply (Query.of .person).row) [] = (.ok e, memo) := h
    rw [h'] at hlower
    exact ⟨e, memo, Option.some.inj hlower.1, hlower.2, hfilter, hproject⟩
  · have h' : Model.people.context.lower (.of .person)
        (Lambda.nestedAge.apply (Query.of .person).row) [] = (.error cause, memo) := h
    rw [h'] at hlower
    cases hlower.1

end Context

end EntityQuery
