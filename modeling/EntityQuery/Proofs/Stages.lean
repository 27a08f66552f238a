import EntityQuery.Proofs.Reading.Scalar
import EntityQuery.Proofs.Rollback

/-!
Filters and projections one after another.

What the next lambda sees of a query is its source, its projection and its row. What a stage does
to these, and the condition that a filter adds, hang on nothing else: neither on the conditions
before it nor on the attributes in use.

* `Stage` -- a filter or a projection; `Chain.staged` -- a chain of them on an entity;
* `Query.Grounded` -- the invariant: rows and attributes of the source, scalar values;
* `Context.filter_of_condition?`, `Context.project_of_projected?` -- what a stage does;
* `Context.outcome` -- the rows after stages and the conditions they add, in turn;
* `Context.applyAll_of_outcome` -- **applying the stages comes to their outcome**;
* `Model.run_staged_of_outcome`, `Model.outcome_of_run_staged` -- the same for a whole chain.
-/
namespace EntityQuery

/-! ## 1. Stages -/

/-- A further condition on the rows, or other rows in place of them. -/
inductive Stage where
  | filter (predicate : Lambda)
  | project (selector : Lambda)

namespace Stage

/-- The stage as an operator of a chain. -/
def operator : Stage → Operator
  | .filter predicate => .filter predicate
  | .project selector => .project selector

/-- The lambda of a stage. -/
def lambda : Stage → Lambda
  | .filter predicate => predicate
  | .project selector => selector

end Stage

/-- The chain of an entity and stages. -/
def Chain.staged (entity : String) (stages : List Stage) : Chain :=
  .source entity :: stages.map Stage.operator

/-! ## 2. What the next lambda sees -/

/-- What is read through a shape hangs on its source and its projection only. -/
theorem Context.reading_congr (ctx : Context) {s s' : Shape} (hsource : s.source = s'.source)
    (hprojection : s.projection = s'.projection) : ctx.reading s = ctx.reading s' := by
  simp only [reading, Shape.rowAt?, Shape.valueAt, hsource, hprojection]

namespace Query

/-- The query without its conditions, its order and the attributes in use. -/
def bare (q : Query) : Query :=
  { shape := { source := q.shape.source, projection := q.shape.projection }, row := q.row }

/-- What the row of a query stands for. -/
def content (ctx : Context) (q : Query) : Content Expr NamedRow :=
  q.row.content (ctx.reading q.shape) Scope.empty

/-- The query with one more condition. -/
def filtered (q : Query) (condition : Expr) (memo : Memo) : Query :=
  { q.withMemo memo with shape := (q.withMemo memo).shape.addFilter condition }

/-- The query with other rows. -/
def projected (q : Query) (bound : Bound Term) (memo : Memo) : Query :=
  { shape := { (q.withMemo memo).shape with projection := .ofList bound.entries },
    row := bound.row }

end Query

/-- A further condition besides those there are. -/
def Expr.conjoin (existing : Option Expr) (condition : Expr) : Option Expr :=
  match existing with
  | none => some condition
  | some e => some (e.both condition)

namespace Query

variable (q : Query) (e : Expr) (memo : Memo)

@[simp] theorem filtered_source : (q.filtered e memo).shape.source = q.shape.source := by
  unfold filtered Shape.addFilter
  split <;> rfl

@[simp] theorem filtered_projection :
    (q.filtered e memo).shape.projection = q.shape.projection := by
  unfold filtered Shape.addFilter
  split <;> rfl

@[simp] theorem filtered_memo : (q.filtered e memo).shape.memo = memo := by
  unfold filtered Shape.addFilter
  split <;> rfl

@[simp] theorem filtered_row : (q.filtered e memo).row = q.row := rfl

@[simp] theorem filtered_filter :
    (q.filtered e memo).shape.filter = Expr.conjoin q.shape.filter e := by
  show ((q.withMemo memo).shape.addFilter e).filter = _
  unfold Shape.addFilter Expr.conjoin
  show (match q.shape.filter with | none => _ | some existing => _ : Shape).filter = _
  cases q.shape.filter <;> rfl

@[simp] theorem filtered_bare : (q.filtered e memo).bare = q.bare := by
  simp [bare]

/-- What holds of conditions and of both together holds of the condition with one more. -/
theorem filtered_keeps {q : Query} {e : Expr} {memo : Memo} {P : Expr → Prop}
    (hboth : ∀ a b, P a → P b → P (.ofBinary .and a b)) (hq : ∀ d, q.shape.filter = some d → P d)
    (he : P e) : ∀ d, (q.filtered e memo).shape.filter = some d → P d := by
  intro d hd
  rw [filtered_filter] at hd
  cases hold : q.shape.filter with
  | none =>
    rw [hold] at hd
    cases hd
    exact he
  | some existing =>
    rw [hold] at hd
    cases hd
    exact hboth existing e (hq existing hold) he

end Query

namespace Context

/-- The condition that a lambda says of the rows of a query. -/
def condition? (ctx : Context) (predicate : Lambda) (q : Query) : Option Expr :=
  (predicate.content (ctx.reading q.shape) (q.content ctx)).value?

/-- The rows that a lambda makes of those of a query. -/
def projected? (ctx : Context) (selector : Lambda) (q : Query) : Option (Bound Term) :=
  (selector.content (ctx.reading q.shape) (q.content ctx)).bound .root

end Context

/-- What all the operations on terms keep holds of whatever a lambda stands for on a query. -/
theorem Query.every_lambda {ctx : Context} {q : Query} {P : Expr → Prop} {Q : NamedRow → Prop}
    (hkeeps : (ctx.reading q.shape).Keeps P Q) (l : Lambda) :
    (l.content (ctx.reading q.shape) (q.content ctx)).Every P Q fun _ => True := by
  have hrow : (q.content ctx).Every P Q fun _ => True :=
    Term.every_content hkeeps (fun _ => .nothing) (fun _ _ => trivial) (Term.every_true q.row)
  exact Term.every_content_lambda hkeeps hrow (fun _ _ => trivial) (Term.every_true l.body)

/-! ## 3. The invariant -/

/-- Rows and attributes are those of the source, an entity of the model, and the values are
    scalar. -/
structure Query.Grounded (model : Model) (root : Entity) (q : Query) : Prop where
  rooted : q.shape.Rooted model root
  faithful : q.shape.memo.Faithful root
  scalar : q.shape.projection.Scalar

namespace Query.Grounded

variable {model : Model} {root : Entity} {q : Query}

theorem start {entity : String} (h : model.find? entity = some root) :
    (Query.of root).Grounded model root where
  rooted :=
    { found := by rw [Model.name_of_find? h]; exact h
      source_eq := rfl
      rows := fun _ _ hget => by cases hget }
  faithful := Memo.faithful_nil root
  scalar := fun _ _ hget => by cases hget

theorem filtered (h : q.Grounded model root) (e : Expr) {memo : Memo}
    (hm : memo.Faithful root) : (q.filtered e memo).Grounded model root where
  rooted :=
    { found := h.rooted.found
      source_eq := by rw [filtered_source]; exact h.rooted.source_eq
      rows := by rw [filtered_projection]; exact h.rooted.rows }
  faithful := by rw [filtered_memo]; exact hm
  scalar := by rw [filtered_projection]; exact h.scalar

/-- All that a lambda stands for on a grounded query is scalar, and its rows are the source's. -/
theorem every_lambda (h : q.Grounded model root) (l : Lambda) :
    (l.content (model.context.reading q.shape) (q.content model.context)).Every
      (fun e => e.isScalar = true) (NamedRow.IsOf root) fun _ => True :=
  Query.every_lambda (Model.keeps_isScalar h.rooted h.scalar) l

theorem projected (h : q.Grounded model root) {selector : Lambda} {b : Bound Term}
    (hb : model.context.projected? selector q = some b) {memo : Memo} (hm : memo.Faithful root) :
    (q.projected b memo).Grounded model root := by
  have hentries := (Content.binds_of_bound _ hb).entry_cases (fun _ _ _ => trivial)
    (h.every_lambda selector)
  refine ⟨⟨h.rooted.found, h.rooted.source_eq, fun path ref hget => ?_⟩, hm, fun path e hget hr => ?_⟩
  · rcases hentries _ (Projection.mem_of_get?_ofList hget) with hs | ⟨name, ref', heq, hof⟩
    · cases hs
    · cases heq
      exact hof ref rfl
  · rcases hentries _ (Projection.mem_of_get?_ofList hget) with hs | ⟨name, ref', heq, _⟩
    · exact hs
    · have hrow : e = .row ref' := heq
      rw [hrow] at hr
      cases hr

end Query.Grounded

/-! ## 4. One stage -/

namespace Context

variable {model : Model} {root : Entity} {q : Query}

/-- On a grounded query a term is lowered to the value it stands for. -/
theorem lower_grounded (h : q.Grounded model root) (t : Term) :
    (model.context.lower q.shape t q.shape.memo).1.toOption =
        (t.content (model.context.reading q.shape) Scope.empty).value? ∧
      (model.context.lower q.shape t q.shape.memo).2.Faithful root := by
  have hg : Gives root (model.context.lower q.shape t) _ := gives_lower h.rooted t
  exact hg q.shape.memo h.faithful

/-- On a grounded query a term is bound as what it stands for. -/
theorem bind_grounded (h : q.Grounded model root) (t : Term) :
    (model.context.bind q.shape .root t q.shape.memo).1.toOption =
        (t.content (model.context.reading q.shape) Scope.empty).bound .root ∧
      (model.context.bind q.shape .root t q.shape.memo).2.Faithful root := by
  have hg : Gives root (model.context.bind q.shape .root t) _ := gives_bind h.rooted .root t
  exact hg q.shape.memo h.faithful

/-- A filter adds the condition that its predicate says. -/
theorem filter_of_condition? (h : q.Grounded model root) {l : Lambda} {e : Expr}
    (he : model.context.condition? l q = some e) :
    ∃ memo, memo.Faithful root ∧
      model.context.apply (Stage.filter l).operator q = (.ok (), q.filtered e memo) := by
  obtain ⟨hres, hmemo⟩ := lower_grounded h (l.apply q.row)
  rw [Lambda.content_apply] at hres
  replace hres := hres.trans he
  show ∃ memo, _ ∧ model.context.filter l q = _
  unfold filter
  generalize model.context.lower q.shape (l.apply q.row) q.shape.memo = after at hres hmemo
  obtain ⟨r, memo⟩ := after
  cases r with
  | error cause => cases hres
  | ok e' =>
    cases hres
    exact ⟨memo, hmemo, rfl⟩

theorem filter_of_condition?_eq_none (h : q.Grounded model root) {l : Lambda}
    (he : model.context.condition? l q = none) :
    ∃ failure, model.context.apply (Stage.filter l).operator q = (.error failure, q) := by
  have hres := (lower_grounded h (l.apply q.row)).1
  rw [Lambda.content_apply] at hres
  replace hres := hres.trans he
  rcases hf : model.context.filter l q with ⟨outcome, q'⟩
  cases outcome with
  | error failure =>
    have hq := filter_error hf
    subst hq
    exact ⟨failure, hf⟩
  | ok _ =>
    unfold filter at hf
    split at hf
    · rename_i hl
      rw [hl] at hres
      cases hres
    · cases hf

/-- A projection puts the rows that its selector makes in place of those there are. -/
theorem project_of_projected? (h : q.Grounded model root) {l : Lambda} {b : Bound Term}
    (hb : model.context.projected? l q = some b) :
    ∃ memo, memo.Faithful root ∧
      model.context.apply (Stage.project l).operator q = (.ok (), q.projected b memo) := by
  obtain ⟨hres, hmemo⟩ := bind_grounded h (l.apply q.row)
  rw [Lambda.content_apply] at hres
  replace hres := hres.trans hb
  show ∃ memo, _ ∧ model.context.project l q = _
  unfold project
  generalize model.context.bind q.shape .root (l.apply q.row) q.shape.memo = after at hres hmemo
  obtain ⟨r, memo⟩ := after
  cases r with
  | error fault => cases hres
  | ok b' =>
    cases hres
    exact ⟨memo, hmemo, rfl⟩

theorem project_of_projected?_eq_none (h : q.Grounded model root) {l : Lambda}
    (hb : model.context.projected? l q = none) :
    ∃ failure, model.context.apply (Stage.project l).operator q = (.error failure, q) := by
  have hres := (bind_grounded h (l.apply q.row)).1
  rw [Lambda.content_apply] at hres
  replace hres := hres.trans hb
  rcases hp : model.context.project l q with ⟨outcome, q'⟩
  cases outcome with
  | error failure =>
    have hq := project_error hp
    subst hq
    exact ⟨failure, hp⟩
  | ok _ =>
    unfold project at hp
    split at hp
    · rename_i hl
      rw [hl] at hres
      cases hres
    · cases hp

/-- **All that a stage can do**: nothing, or add a condition, or put other rows in place of those
    there are. -/
theorem stage_cases (h : q.Grounded model root) (s : Stage) :
    (∃ failure, model.context.apply s.operator q = (.error failure, q)) ∨
    (∃ l e memo, s = .filter l ∧ model.context.condition? l q = some e ∧ memo.Faithful root ∧
      model.context.apply s.operator q = (.ok (), q.filtered e memo)) ∨
    ∃ l b memo, s = .project l ∧ model.context.projected? l q = some b ∧ memo.Faithful root ∧
      model.context.apply s.operator q = (.ok (), q.projected b memo) := by
  cases s with
  | filter l =>
    cases he : model.context.condition? l q with
    | none => exact Or.inl (filter_of_condition?_eq_none h he)
    | some e =>
      obtain ⟨memo, hm, hf⟩ := filter_of_condition? h he
      exact Or.inr (Or.inl ⟨l, e, memo, rfl, he, hm, hf⟩)
  | project l =>
    cases hb : model.context.projected? l q with
    | none => exact Or.inl (project_of_projected?_eq_none h hb)
    | some b =>
      obtain ⟨memo, hm, hp⟩ := project_of_projected? h hb
      exact Or.inr (Or.inr ⟨l, b, memo, rfl, hb, hm, hp⟩)

/-! ## 5. Stages in turn -/

/-- The rows after stages and the conditions that they add, in turn. -/
def outcome (ctx : Context) : List Stage → Query → Option (Query × List Expr)
  | [], q => some (q, [])
  | .filter predicate :: rest, q =>
    (ctx.condition? predicate q).bind fun e =>
      (outcome ctx rest q).map fun r => (r.1, e :: r.2)
  | .project selector :: rest, q =>
    (ctx.projected? selector q).bind fun b => outcome ctx rest (q.projected b q.shape.memo)

/-- **Applying the stages comes to their outcome**: the rows are those of the outcome, and its
    conditions are added to those there were. -/
theorem applyAll_of_outcome {stages : List Stage} (h : q.Grounded model root) {r : Query}
    {es : List Expr} (ho : model.context.outcome stages q.bare = some (r, es)) :
    ∃ q', model.context.applyAll (stages.map Stage.operator) q = (.ok (), q') ∧
      q'.Grounded model root ∧ q'.bare = r ∧
      q'.shape.filter = es.foldl Expr.conjoin q.shape.filter := by
  -- the outcome is that of the bare query, so a filter leaves the rest of it as it was
  induction stages generalizing q es with
  | nil =>
    cases ho
    exact ⟨q, rfl, h, rfl, rfl⟩
  | cons stage rest ih =>
    cases stage with
    | filter l =>
      obtain ⟨e, he, ho⟩ := Option.bind_eq_some_iff.mp ho
      obtain ⟨⟨r', es'⟩, hrest, hr⟩ := Option.map_eq_some_iff.mp ho
      cases hr
      obtain ⟨memo, hm, hf⟩ := filter_of_condition? h he
      rw [← q.filtered_bare e memo] at hrest
      obtain ⟨q', hrun, hq', hbare, hfilter⟩ := ih (h.filtered e hm) hrest
      refine ⟨q', ?_, hq', hbare, ?_⟩
      · rw [List.map_cons, applyAll_cons_ok hf]
        exact hrun
      · rw [hfilter, q.filtered_filter]
        rfl
    | project l =>
      obtain ⟨b, hb, ho⟩ := Option.bind_eq_some_iff.mp ho
      obtain ⟨memo, hm, hp⟩ := project_of_projected? h hb
      obtain ⟨q', hrun, hq', hbare, hfilter⟩ := ih (h.projected hb hm) ho
      refine ⟨q', ?_, hq', hbare, hfilter⟩
      rw [List.map_cons, applyAll_cons_ok hp]
      exact hrun

/-- Stages without an outcome fail. -/
theorem applyAll_of_outcome_eq_none {stages : List Stage} (h : q.Grounded model root)
    (ho : model.context.outcome stages q.bare = none) :
    ∃ failure q', model.context.applyAll (stages.map Stage.operator) q = (.error failure, q') := by
  induction stages generalizing q with
  | nil => cases ho
  | cons stage rest ih =>
    cases stage with
    | filter l =>
      rw [List.map_cons]
      cases he : model.context.condition? l q with
      | none =>
        obtain ⟨failure, hf⟩ := filter_of_condition?_eq_none h he
        exact ⟨failure, q, applyAll_cons_error hf _⟩
      | some e =>
        obtain ⟨memo, hm, hf⟩ := filter_of_condition? h he
        have hrest : model.context.outcome rest q.bare = none := by
          have he' : model.context.condition? l q.bare = some e := he
          simpa [outcome, he'] using ho
        rw [applyAll_cons_ok hf]
        rw [← q.filtered_bare e memo] at hrest
        exact ih (h.filtered e hm) hrest
    | project l =>
      rw [List.map_cons]
      cases hb : model.context.projected? l q with
      | none =>
        obtain ⟨failure, hp⟩ := project_of_projected?_eq_none h hb
        exact ⟨failure, q, applyAll_cons_error hp _⟩
      | some b =>
        obtain ⟨memo, hm, hp⟩ := project_of_projected? h hb
        have hrest : model.context.outcome rest (q.bare.projected b q.bare.shape.memo) = none := by
          have hb' : model.context.projected? l q.bare = some b := hb
          simpa [outcome, hb'] using ho
        rw [applyAll_cons_ok hp]
        exact ih (h.projected hb hm) hrest

end Context

/-! ## 6. Chains -/

/-- The conditions joined from the first to the last. -/
def Expr.conjunction : List Expr → Option Expr
  | [] => none
  | e :: es => some (es.foldl Expr.both e)

theorem Expr.foldl_conjoin (es : List Expr) : es.foldl Expr.conjoin none = conjunction es := by
  have hsome : ∀ (es : List Expr) (e : Expr),
      es.foldl Expr.conjoin (some e) = some (es.foldl Expr.both e) := by
    intro es
    induction es with
    | nil => exact fun _ => rfl
    | cons d es ih => exact fun e => ih (e.both d)
  cases es with
  | nil => rfl
  | cons e es => exact hsome es e

namespace Model

variable {model : Model} {root : Entity} {entity : String} {stages : List Stage}

theorem source_of_find? (hroot : model.find? entity = some root) :
    model.context.source entity = .ok (.of root) := by
  show (model.get entity >>= fun e => _) = _
  unfold Model.get
  rw [hroot]
  rfl

/-- The rows of an entity are those of an entity of the model. -/
theorem source_cases {q : Query} (h : model.context.source entity = .ok q) :
    ∃ root, model.find? entity = some root ∧ q = .of root := by
  cases hroot : model.find? entity with
  | some root =>
    rw [source_of_find? hroot] at h
    cases h
    exact ⟨root, rfl, rfl⟩
  | none =>
    have hget : (model.get entity >>= fun e => _) = Except.ok q := h
    unfold Model.get at hget
    rw [hroot] at hget
    cases hget

theorem run_staged (hroot : model.find? entity = some root) (stages : List Stage) :
    model.context.run (Chain.staged entity stages) =
      match model.context.applyAll (stages.map Stage.operator) (.of root) with
      | (.ok (), q) => .ok q
      | (.error failure, _) => .error failure := by
  show (model.context.source entity >>= fun q => _) = _
  rw [source_of_find? hroot]
  rfl

/-- **A chain whose stages have an outcome has a query** with the rows of the outcome and its
    conditions joined. -/
theorem run_staged_of_outcome (hroot : model.find? entity = some root) {r : Query}
    {es : List Expr} (ho : model.context.outcome stages (.of root) = some (r, es)) :
    ∃ q, model.context.run (Chain.staged entity stages) = .ok q ∧ q.Grounded model root ∧
      q.bare = r ∧ q.shape.filter = Expr.conjunction es := by
  obtain ⟨q, hrun, hq, hbare, hfilter⟩ := Context.applyAll_of_outcome (.start hroot) ho
  refine ⟨q, ?_, hq, hbare, ?_⟩
  · rw [run_staged hroot, hrun]
  · rw [hfilter]
    exact Expr.foldl_conjoin es

/-- A chain with a query has an entity, and its stages have an outcome. -/
theorem outcome_of_run_staged {q : Query}
    (h : model.context.run (Chain.staged entity stages) = .ok q) :
    ∃ root es, model.find? entity = some root ∧ q.Grounded model root ∧
      model.context.outcome stages (.of root) = some (q.bare, es) ∧
      q.shape.filter = Expr.conjunction es := by
  have hrun : (model.context.source entity >>= fun q => _) = Except.ok q := h
  cases hs : model.context.source entity with
  | error failure =>
    rw [hs] at hrun
    cases hrun
  | ok start =>
    obtain ⟨root, hroot, _⟩ := source_cases hs
    cases ho : model.context.outcome stages (.of root) with
    | none =>
      obtain ⟨failure, q', hrun⟩ := Context.applyAll_of_outcome_eq_none (.start hroot) ho
      rw [run_staged hroot, hrun] at h
      cases h
    | some outcome =>
      obtain ⟨r, es⟩ := outcome
      obtain ⟨q', hrun, hq, hbare, hfilter⟩ := run_staged_of_outcome hroot ho
      rw [hrun] at h
      cases h
      exact ⟨root, es, hroot, hq, by rw [hbare]; exact ho, hfilter⟩

/-- A chain has a query exactly if it starts from an entity of the model and its stages have an
    outcome there. -/
theorem runs_staged_iff (model : Model) (entity : String) (stages : List Stage) :
    (∃ q, model.context.run (Chain.staged entity stages) = .ok q) ↔
      ∃ root, model.find? entity = some root ∧
        (model.context.outcome stages (.of root)).isSome = true := by
  constructor
  · rintro ⟨q, h⟩
    obtain ⟨root, es, hroot, _, ho, _⟩ := outcome_of_run_staged h
    exact ⟨root, hroot, by rw [ho]; rfl⟩
  · rintro ⟨root, hroot, h⟩
    obtain ⟨⟨r, es⟩, ho⟩ := Option.isSome_iff_exists.mp h
    obtain ⟨q, hrun, _⟩ := run_staged_of_outcome hroot ho
    exact ⟨q, hrun⟩

end Model

/-! ## 7. A chain of four stages -/

/-- The name starts with an A. -/
def Lambda.startsWithA : Lambda where
  parameter := "p"
  body := .call (.member (.parameter "p") "Name") { owner := none, name := "StartsWith" }
    [.constant (some (.string "A")) .string]

/-- The whole person, and the age beside it. -/
def Lambda.withAge : Lambda where
  parameter := "p"
  body := .object [("who", .parameter "p"), ("age", .member (.parameter "p") "Age")]

/-- Older than 18, by the age of the whole person. -/
def Lambda.isAdult : Lambda where
  parameter := "x"
  body := .binary .greater (.member (.member (.parameter "x") "who") "Age")
    (.constant (some (.int32 18)) .int32)

/-- The name, and beside it all there was. -/
def Lambda.withName : Lambda where
  parameter := "x"
  body := .object [("name", .member (.member (.parameter "x") "who") "Name"), ("all", .parameter "x")]

/-- Filters before and behind a projection, and a projection of what is projected. -/
def Stage.adults : List Stage :=
  [.filter .startsWithA, .project .withAge, .filter .isAdult, .project .withName]

end EntityQuery
