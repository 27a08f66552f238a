import EntityQuery.Proofs.Stages
import Mathlib.Data.List.Forall2

/-!
The filters of a chain are conjuncts that know nothing of one another.

* `Stage.unfiltered` -- the stages without their filters;
* `Stage.isolated` -- for each filter, the projections before it and that filter alone;
* `Context.isSome_outcome_iff` -- stages have an outcome exactly if all these have one;
* `Context.outcome_split` -- and it is put together from theirs;
* `Model.filters_are_independent_conjuncts` -- the same for the queries of whole chains.
-/
namespace EntityQuery

namespace Stage

/-! ## 1. Chains with fewer filters -/

/-- The stages without their filters. -/
def unfiltered : List Stage → List Stage
  | [] => []
  | .filter _ :: rest => unfiltered rest
  | .project selector :: rest => .project selector :: unfiltered rest

/-- For each filter, in turn, the projections before it and that filter. -/
def isolated : List Stage → List (List Stage)
  | [] => []
  | .filter predicate :: rest => [.filter predicate] :: isolated rest
  | .project selector :: rest => (isolated rest).map (.project selector :: ·)

end Stage

open Stage

/-! ## 2. Outcomes -/

namespace Context

theorem outcome_filter (ctx : Context) {l : Lambda} {q : Query} {e : Expr}
    (he : ctx.condition? l q = some e) (rest : List Stage) :
    ctx.outcome (.filter l :: rest) q = (ctx.outcome rest q).map fun r => (r.1, e :: r.2) := by
  rw [outcome, he]
  rfl

theorem outcome_project (ctx : Context) {l : Lambda} {q : Query} {b : Bound Term}
    (hb : ctx.projected? l q = some b) (rest : List Stage) :
    ctx.outcome (.project l :: rest) q = ctx.outcome rest (q.projected b q.shape.memo) := by
  rw [outcome, hb]
  rfl

theorem outcome_filter_alone (ctx : Context) (l : Lambda) (q : Query) :
    (ctx.outcome [.filter l] q).isSome = (ctx.condition? l q).isSome := by
  cases he : ctx.condition? l q with
  | none => rw [outcome, he]; rfl
  | some e => rw [ctx.outcome_filter he]; rfl

/-- Stages have an outcome exactly if they have one without the filters, and each filter has one
    behind the projections before it. -/
theorem isSome_outcome_iff (ctx : Context) (stages : List Stage) (q : Query) :
    (ctx.outcome stages q).isSome = true ↔
      (ctx.outcome (unfiltered stages) q).isSome = true ∧
        ∀ alone ∈ isolated stages, (ctx.outcome alone q).isSome = true := by
  induction stages generalizing q with
  | nil => simp [outcome, unfiltered, isolated]
  | cons stage rest ih =>
    cases stage with
    | filter l =>
      rw [unfiltered, isolated, List.forall_mem_cons, outcome_filter_alone]
      cases he : ctx.condition? l q with
      | none => simp [outcome, he]
      | some e =>
        rw [ctx.outcome_filter he, Option.isSome_map, ih q]
        simp
    | project l =>
      rw [unfiltered, isolated, List.forall_mem_map]
      cases hb : ctx.projected? l q with
      | none => simp [outcome, hb]
      | some b =>
        simp only [ctx.outcome_project hb]
        exact ih _

/-- The rows of an outcome are those without the filters, and its conditions are those of each
    filter behind the projections before it, in turn. -/
theorem outcome_split {ctx : Context} {stages : List Stage} {q r : Query} {es : List Expr}
    (h : ctx.outcome stages q = some (r, es)) :
    ctx.outcome (unfiltered stages) q = some (r, []) ∧
      List.Forall₂ (fun alone e => ∃ r', ctx.outcome alone q = some (r', [e]))
        (isolated stages) es := by
  induction stages generalizing q es with
  | nil =>
    cases h
    exact ⟨rfl, .nil⟩
  | cons stage rest ih =>
    cases stage with
    | filter l =>
      obtain ⟨e, he, h⟩ := Option.bind_eq_some_iff.mp h
      obtain ⟨⟨r', es'⟩, hrest, hr⟩ := Option.map_eq_some_iff.mp h
      cases hr
      obtain ⟨hrows, hconditions⟩ := ih hrest
      refine ⟨hrows, .cons ⟨q, ?_⟩ hconditions⟩
      rw [ctx.outcome_filter he]
      rfl
    | project l =>
      obtain ⟨b, hb, h⟩ := Option.bind_eq_some_iff.mp h
      obtain ⟨hrows, hconditions⟩ := ih h
      rw [unfiltered, isolated, ctx.outcome_project hb, List.forall₂_map_left_iff]
      simp only [ctx.outcome_project hb]
      exact ⟨hrows, hconditions⟩

end Context

/-! ## 3. Queries -/

namespace Model

/-- **The filters of a chain are independent conjuncts.** The chain has a query exactly if it has
    one without its filters, and each filter alone has one behind the projections before it. Its
    condition is then that of the filters alone, joined from the first to the last, and the rest of
    it is the query without the filters. -/
theorem filters_are_independent_conjuncts (model : Model) (entity : String)
    (stages : List Stage) :
    ((∃ q, model.context.run (Chain.staged entity stages) = .ok q) ↔
      (∃ q, model.context.run (Chain.staged entity (unfiltered stages)) = .ok q) ∧
        ∀ alone ∈ isolated stages,
          ∃ q, model.context.run (Chain.staged entity alone) = .ok q) ∧
    ∀ q, model.context.run (Chain.staged entity stages) = .ok q →
      ∃ base conditions,
        model.context.run (Chain.staged entity (unfiltered stages)) = .ok base ∧
        List.Forall₂ (fun alone e => ∃ q',
          model.context.run (Chain.staged entity alone) = .ok q' ∧ q'.shape.filter = some e)
          (isolated stages) conditions ∧
        q.shape.filter = Expr.conjunction conditions ∧
        q.shape.source = base.shape.source ∧
        q.shape.projection = base.shape.projection ∧
        q.row = base.row := by
  constructor
  · simp only [runs_staged_iff]
    cases model.find? entity with
    | none => simp
    | some root =>
      simp only [Option.some.injEq, exists_eq_left']
      exact model.context.isSome_outcome_iff stages (.of root)
  · intro q h
    obtain ⟨root, es, hroot, _, ho, hfilter⟩ := outcome_of_run_staged h
    obtain ⟨hrows, hconditions⟩ := Context.outcome_split ho
    obtain ⟨base, hbase, _, hbare, _⟩ := run_staged_of_outcome hroot hrows
    refine ⟨base, es, hbase, hconditions.imp ?_, hfilter, ?_⟩
    · rintro alone e ⟨r, halone⟩
      obtain ⟨q', hq', _, _, hcondition⟩ := run_staged_of_outcome hroot halone
      exact ⟨q', hq', hcondition⟩
    · exact ⟨(congrArg (·.shape.source) hbare).symm, (congrArg (·.shape.projection) hbare).symm,
        (congrArg (·.row) hbare).symm⟩

/-- Two filters, one of them behind a projection, are joined by AND. -/
theorem filters_are_independent_conjuncts_of_adults :
    ∃ q e₁ e₂, people.context.run (Chain.staged "Person" adults) = .ok q ∧
      (∃ q₁, people.context.run (Chain.staged "Person" [.filter .startsWithA]) = .ok q₁ ∧
        q₁.shape.filter = some e₁) ∧
      (∃ q₂, people.context.run (Chain.staged "Person" [.project .withAge, .filter .isAdult]) =
        .ok q₂ ∧ q₂.shape.filter = some e₂) ∧
      q.shape.filter = some (.binary .and e₁ e₂ e₁.type e₁.mapping) := by
  obtain ⟨q, hq⟩ := (runs_staged_iff people "Person" adults).mpr ⟨.person, rfl, by decide⟩
  obtain ⟨_, conditions, _, hconditions, hfilter, _⟩ :=
    (filters_are_independent_conjuncts people "Person" adults).2 q hq
  rw [show isolated adults = [[.filter .startsWithA], [.project .withAge, .filter .isAdult]] from
    rfl] at hconditions
  cases hconditions with
  | @cons _ e₁ _ _ h₁ hrest =>
    cases hrest with
    | @cons _ e₂ _ _ h₂ hnil =>
      cases hnil
      have hboth : q.shape.filter = some (e₁.both e₂) := hfilter
      rw [Expr.both_eq_binary] at hboth
      exact ⟨q, e₁, e₂, hq, h₁, h₂, hboth⟩

end Model

end EntityQuery
