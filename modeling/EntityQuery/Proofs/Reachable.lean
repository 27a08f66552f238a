import EntityQuery.Proofs.Stages

/-!
Queries that stages lead to.

* `Lambda.WellFormed` -- a lambda as a query writes it: nothing in it is bound at a path, and no
  object construction uses a label twice;
* `Query.Reachable` -- the queries that stages lead to, failed ones among them;
* `Query.Grounded.content_projected` -- **after a projection the row stands for what the selector
  stood for before it**;
* `Lambda.content_eq_of_source_eq` -- what a plain lambda stands for hangs on the source alone;
* `Query.Reachable.orderly` -- reachable queries are grounded, and the objects in their rows have
  distinct labels.
-/
namespace EntityQuery

/-! ## 1. Lambdas -/

/-- A lambda as a query writes it. -/
structure Lambda.WellFormed (l : Lambda) : Prop where
  plain : l.body.isPlain = true
  distinct : l.body.hasDistinctLabels = true

instance (l : Lambda) : Decidable l.WellFormed :=
  decidable_of_iff (l.body.isPlain = true ∧ l.body.hasDistinctLabels = true)
    ⟨fun h => ⟨h.1, h.2⟩, fun h => ⟨h.1, h.2⟩⟩

namespace Lambda

universe u

/-- Without a label twice in the lambda and in its argument, there is none twice in the result. -/
theorem distinct_content {α : Type u} {ρ : Type} (R : Reading α ρ) {l : Lambda}
    (hl : l.body.hasDistinctLabels = true) {c : Content α ρ} (hc : c.Distinct) :
    (l.content R c).Distinct := by
  have hR : R.Keeps (fun _ => True) fun _ => True := by
    constructor <;> intros <;> trivial
  exact Term.every_content_lambda hR hc (fun members h => of_decide_eq_true h) hl

/-- What a plain lambda stands for hangs on the source alone. -/
theorem content_eq_of_source_eq (ctx : Context) {l : Lambda} (hl : l.body.isPlain = true)
    {s s' : Shape} (h : s.source = s'.source) (c : Content Expr NamedRow) :
    l.content (ctx.reading s) c = l.content (ctx.reading s') c := by
  have hplaces : ctx.reading s =
      (ctx.reading s').withPlaces (ctx.reading s).row (ctx.reading s).bound := by
    simp only [Context.reading, Reading.withPlaces, h]
  rw [hplaces]
  exact Term.content_of_isPlain _ _ _ _ hl

end Lambda

/-! ## 2. The rows after a stage -/

namespace Query

variable {model : Model} {root : Entity} {q : Query}

/-- A filter leaves what the row stands for. -/
theorem content_filtered (ctx : Context) (q : Query) (e : Expr) (memo : Memo) :
    (q.filtered e memo).content ctx = q.content ctx := by
  unfold content
  rw [filtered_row, ctx.reading_congr (q.filtered_source e memo) (q.filtered_projection e memo)]

/-- **After a projection the row stands for what the selector stood for before it.** -/
theorem Grounded.content_projected (h : q.Grounded model root) {l : Lambda} {b : Bound Term}
    (hb : model.context.projected? l q = some b)
    (hd : (l.content (model.context.reading q.shape) (q.content model.context)).Distinct)
    (memo : Memo) :
    (q.projected b memo).content model.context =
      l.content (model.context.reading q.shape) (q.content model.context) := by
  have hbinds := Content.binds_of_bound _ hb
  have hvalues := (h.every_lambda l).imp (fun _ he => Expr.isRow_of_isScalar he)
  exact hbinds.content_row (fun _ _ _ => trivial) hvalues fun entry hentry =>
    hbinds.get?_of_mem hd hentry

/-! ## 3. Reachable queries -/

/-- The queries that come from an entity by stages whose lambdas have a property. A stage may fail
    on the way. -/
inductive Reachable (ctx : Context) (P : Lambda → Prop) : Query → Prop where
  | source {entity : String} {q : Query} (h : ctx.source entity = .ok q) : Reachable ctx P q
  | stage {q : Query} (h : Reachable ctx P q) (s : Stage) (hs : P s.lambda) :
      Reachable ctx P (ctx.apply s.operator q).2

/-- A grounded query whose row has no label twice in an object. -/
structure Orderly (model : Model) (root : Entity) (q : Query) : Prop where
  grounded : q.Grounded model root
  distinct : (q.content model.context).Distinct

theorem Orderly.start {entity : String} (h : model.find? entity = some root) :
    (Query.of root).Orderly model root :=
  ⟨.start h, .row trivial⟩

theorem Orderly.projected (h : q.Orderly model root) {l : Lambda} (hl : l.WellFormed)
    {b : Bound Term} (hb : model.context.projected? l q = some b) {memo : Memo}
    (hm : memo.Faithful root) : (q.projected b memo).Orderly model root := by
  have hd := Lambda.distinct_content (model.context.reading q.shape) hl.distinct h.distinct
  refine ⟨h.grounded.projected hb hm, ?_⟩
  rw [h.grounded.content_projected hb hd]
  exact hd

theorem Orderly.stage (h : q.Orderly model root) {s : Stage} (hs : s.lambda.WellFormed) :
    (model.context.apply s.operator q).2.Orderly model root := by
  rcases Context.stage_cases h.grounded s with
    ⟨_, heq⟩ | ⟨l, e, memo, _, _, hm, heq⟩ | ⟨l, b, memo, rfl, hb, hm, heq⟩
  · rw [heq]
    exact h
  · rw [heq]
    refine ⟨h.grounded.filtered e hm, ?_⟩
    rw [content_filtered]
    exact h.distinct
  · rw [heq]
    exact h.projected hs hb hm

/-- **Reachable queries are orderly**, if the lambdas are well formed. -/
theorem Reachable.orderly (h : Reachable model.context Lambda.WellFormed q) :
    ∃ root, q.Orderly model root := by
  induction h with
  | @source entity q h =>
    obtain ⟨root, hroot, rfl⟩ := Model.source_cases h
    exact ⟨root, .start hroot⟩
  | stage _ s hs ih =>
    obtain ⟨root, hq⟩ := ih
    exact ⟨root, hq.stage hs⟩

end Query

end EntityQuery
