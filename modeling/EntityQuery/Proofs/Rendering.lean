import EntityQuery.Proofs.Expressions
import EntityQuery.Proofs.Stages

/-!
Whatever has a query has a statement.

Whole rows are expressions too, and a statement has no place for one inside a condition. They stay
out of conditions and of the values of projections whatever the lambdas say, rows named by hand
among them.

* `Expr.RowFree` -- no whole row inside; `Expr.exists_render` -- such an expression is rendered;
* `Context.apply_cases` -- all that an operator can do, and `Context.run_cases` a chain;
* `Query.Renderable` -- the invariant: the condition is scalar, and so is every projected value that
  is not a whole row;
* `Query.Renderable.apply`, `Query.Renderable.attemptAll` -- one operator, and operators in turn;
* `Query.Renderable.statement_of_filter`, `Query.Renderable.statement_of_no_filter` -- its parts;
* `Model.whatever_translates_renders` -- so every query of a chain has a statement;
* `Chain.filtersOf?`, `Model.conditionOf?` -- what a text is as a chain, and its condition.
-/
namespace EntityQuery

namespace Expr

/-! ## 1. Expressions without whole rows -/

/-- No node of the expression is a whole row. -/
def RowFree (e : Expr) : Prop := ∀ n ∈ e.nodes, n.isRow = false

theorem exists_renderAll :
    ∀ {es : List Expr}, (∀ e ∈ es, ∃ s, e.render false = .ok s) → ∃ ss, renderAll es = .ok ss
  | [], _ => ⟨[], rfl⟩
  | e :: es, h => by
    obtain ⟨s, hs⟩ := h e List.mem_cons_self
    obtain ⟨ss, hss⟩ := exists_renderAll fun d hd => h d (List.mem_cons_of_mem e hd)
    refine ⟨s :: ss, ?_⟩
    rw [renderAll, hs, hss]
    rfl

/-- **An expression without whole rows is rendered.** -/
theorem exists_render {e : Expr} (h : e.RowFree) (nested : Bool) :
    ∃ s, e.render nested = .ok s := by
  induction e generalizing nested with
  | constant value type mapping => cases value <;> exact ⟨_, rfl⟩
  | unary op operand type mapping ih =>
    obtain ⟨s, hs⟩ := ih (fun n hn => h n (List.mem_cons_of_mem _ hn)) true
    refine ⟨.ofText op.lead ++ s, ?_⟩
    rw [render, hs]
    rfl
  | binary op left right type mapping ihl ihr =>
    have hl : left.RowFree := fun n hn =>
      h n (List.mem_cons_of_mem _ (List.mem_append_left _ hn))
    have hr : right.RowFree := fun n hn =>
      h n (List.mem_cons_of_mem _ (List.mem_append_right _ hn))
    obtain ⟨s, hs⟩ := ihl hl true
    obtain ⟨t, ht⟩ := ihr hr true
    rw [render, hs, ht]
    split <;> exact ⟨_, rfl⟩
  | call function arguments type mapping ih =>
    have hargs : ∀ e ∈ arguments, ∃ s, e.render false = .ok s := fun e he =>
      ih e he (fun n hn => h n (List.mem_cons_of_mem _ (nodes_mem_nodesIn he hn))) false
    obtain ⟨ss, hss⟩ := exists_renderAll hargs
    rw [render, hss]
    exact ⟨_, rfl⟩
  | attr ref => exact ⟨_, rfl⟩
  | row ref => exact absurd (h _ List.mem_cons_self) (by simp [isRow])

/-! ## 2. Scalar expressions -/

theorem isScalar_call {function : String} {type : ValueType} {mapping : Option Mapping} :
    ∀ {arguments : List Expr}, (Expr.call function arguments type mapping).isScalar = true →
      (function = "BEGINS_WITH" ∨ function = "CONTAINS") ∧ ∀ e ∈ arguments, e.isScalar = true
  | [], h => by cases h
  | [_], h => by cases h
  | [a, b], h => by
    simp only [isScalar, Bool.and_eq_true, Bool.or_eq_true, decide_eq_true_eq] at h
    obtain ⟨⟨hf, ha⟩, hb⟩ := h
    refine ⟨hf, fun e he => ?_⟩
    simp only [List.mem_cons, List.not_mem_nil, or_false] at he
    rcases he with rfl | rfl
    · exact ha
    · exact hb
  | _ :: _ :: _ :: _, h => by cases h

/-- Every node of a scalar expression is scalar. -/
theorem isScalar_of_mem_nodes {e : Expr} (h : e.isScalar = true) :
    ∀ n ∈ e.nodes, n.isScalar = true := by
  induction e with
  | constant value type mapping =>
    intro n hn
    rw [List.mem_singleton.mp hn]
    exact h
  | unary op operand type mapping ih =>
    intro n hn
    rcases List.mem_cons.mp hn with rfl | hn
    · exact h
    · exact ih h n hn
  | binary op left right type mapping ihl ihr =>
    intro n hn
    have hboth : left.isScalar = true ∧ right.isScalar = true := by
      simpa [isScalar] using h
    rcases List.mem_cons.mp hn with rfl | hn
    · exact h
    · rcases List.mem_append.mp hn with hn | hn
      · exact ihl hboth.1 n hn
      · exact ihr hboth.2 n hn
  | call function arguments type mapping ih =>
    intro n hn
    rcases List.mem_cons.mp hn with rfl | hn
    · exact h
    · rw [nodesIn_eq_flatMap] at hn
      obtain ⟨e, he, hn⟩ := List.mem_flatMap.mp hn
      exact ih e he ((isScalar_call h).2 e he) n hn
  | attr ref =>
    intro n hn
    rw [List.mem_singleton.mp hn]
    exact h
  | row ref => cases h

theorem rowFree_of_isScalar {e : Expr} (h : e.isScalar = true) : e.RowFree :=
  fun n hn => isRow_of_isScalar (isScalar_of_mem_nodes h n hn)

end Expr

/-! ## 3. All that an operator can do -/

namespace Context

variable {model : Model} {root : Entity} {q : Query}

/-- **All that an operator can do**: fail and change nothing, or add a condition, or put other rows
    in place of those there are. -/
theorem apply_cases (h : q.Grounded model root) (op : Operator) :
    (∃ failure, model.context.apply op q = (.error failure, q)) ∨
    (∃ l e memo, op = .filter l ∧ model.context.condition? l q = some e ∧ memo.Faithful root ∧
      model.context.apply op q = (.ok (), q.filtered e memo)) ∨
    ∃ l b memo, op = .project l ∧ model.context.projected? l q = some b ∧ memo.Faithful root ∧
      model.context.apply op q = (.ok (), q.projected b memo) := by
  cases op with
  | filter l =>
    rcases stage_cases h (.filter l) with hfail | ⟨l', e, memo, hl, hrest⟩ | ⟨_, _, _, hl, _⟩
    · exact Or.inl hfail
    · cases hl
      exact Or.inr (Or.inl ⟨l, e, memo, rfl, hrest⟩)
    · cases hl
  | project l =>
    rcases stage_cases h (.project l) with hfail | ⟨_, _, _, hl, _⟩ | ⟨l', b, memo, hl, hrest⟩
    · exact Or.inl hfail
    · cases hl
    · cases hl
      exact Or.inr (Or.inr ⟨l, b, memo, rfl, hrest⟩)
  | _ => exact Or.inl ⟨_, rfl⟩

theorem run_of_source_error {ctx : Context} {entity : String} {failure : Failure}
    (hs : ctx.source entity = .error failure) (ops : List Operator) :
    ctx.run (.source entity :: ops) = .error failure := by
  rw [run, hs]
  rfl

theorem run_of_applyAll {ctx : Context} {entity : String} {start q : Query} {ops : List Operator}
    (hs : ctx.source entity = .ok start) (h : ctx.applyAll ops start = (.ok (), q)) :
    ctx.run (.source entity :: ops) = .ok q := by
  rw [run, hs]
  simp only [Bind.bind, Except.bind, h]
  rfl

theorem run_of_applyAll_error {ctx : Context} {entity : String} {start q : Query}
    {ops : List Operator} {failure : Failure} (hs : ctx.source entity = .ok start)
    (h : ctx.applyAll ops start = (.error failure, q)) :
    ctx.run (.source entity :: ops) = .error failure := by
  rw [run, hs]
  simp only [Bind.bind, Except.bind, h]

/-- **All that a chain can do**: fail for want of a source, or at an operator, or come to a query
    by operators that succeed one after another. -/
theorem run_outcome (ctx : Context) (chain : Chain) :
    (∃ fault, ctx.run chain = .error (.invalidChain fault)) ∨
    (∃ entity ops failure, chain = .source entity :: ops ∧ ctx.source entity = .error failure ∧
      ctx.run chain = .error failure) ∨
    (∃ entity ops start failure q, chain = .source entity :: ops ∧ ctx.source entity = .ok start ∧
      ctx.applyAll ops start = (.error failure, q) ∧ ctx.run chain = .error failure) ∨
    ∃ entity ops start q, chain = .source entity :: ops ∧ ctx.source entity = .ok start ∧
      ctx.applyAll ops start = (.ok (), q) ∧ ctx.run chain = .ok q := by
  cases chain with
  | nil => exact Or.inl ⟨_, rfl⟩
  | cons op ops =>
    cases op with
    | source entity =>
      right
      cases hs : ctx.source entity with
      | error failure =>
        exact Or.inl ⟨entity, ops, failure, rfl, hs, run_of_source_error hs ops⟩
      | ok start =>
        rcases happly : ctx.applyAll ops start with ⟨outcome, q⟩
        cases outcome with
        | error failure =>
          exact Or.inr (Or.inl
            ⟨entity, ops, start, failure, q, rfl, hs, happly, run_of_applyAll_error hs happly⟩)
        | ok _ =>
          exact Or.inr (Or.inr ⟨entity, ops, start, q, rfl, hs, happly, run_of_applyAll hs happly⟩)
    | _ => exact Or.inl ⟨_, rfl⟩

/-- A chain with a query is an entity and operators that succeed one after another. -/
theorem run_cases {ctx : Context} {chain : Chain} {q : Query} (h : ctx.run chain = .ok q) :
    ∃ entity ops start, chain = .source entity :: ops ∧ ctx.source entity = .ok start ∧
      ctx.applyAll ops start = (.ok (), q) := by
  rcases ctx.run_outcome chain with ⟨_, hrun⟩ | ⟨_, _, _, _, _, hrun⟩ | ⟨_, _, _, _, _, _, _, _, hrun⟩ |
    ⟨entity, ops, start, q', hchain, hstart, happly, hrun⟩
  · cases hrun.symm.trans h
  · cases hrun.symm.trans h
  · cases hrun.symm.trans h
  · cases hrun.symm.trans h
    exact ⟨entity, ops, start, hchain, hstart, happly⟩

/-- The statement of a chain is that of its query. -/
theorem statement_of_run {ctx : Context} {chain : Chain} {q : Query} {s : Statement}
    (hq : ctx.run chain = .ok q) (hs : q.shape.statement = .ok s) :
    ctx.statement chain = .ok s := by
  unfold Context.statement
  rw [hq]
  show q.shape.rendered = .ok s
  unfold Shape.rendered
  rw [hs]

/-- Operators succeed in turn if the first does, and the others after it. -/
theorem applyAll_cons_cases {ctx : Context} {op : Operator} {ops : List Operator} {q q' : Query}
    (h : ctx.applyAll (op :: ops) q = (.ok (), q')) :
    ∃ after, ctx.apply op q = (.ok (), after) ∧ ctx.applyAll ops after = (.ok (), q') := by
  rcases hop : ctx.apply op q with ⟨outcome, after⟩
  cases outcome with
  | error failure =>
    rw [applyAll_cons_error hop] at h
    cases h
  | ok _ =>
    rw [applyAll_cons_ok hop] at h
    exact ⟨after, rfl, h⟩

/-- Where no operator fails, trying them in turn is applying them. -/
theorem attemptAll_of_applyAll {ctx : Context} {ops : List Operator} {q q' : Query}
    (h : ctx.applyAll ops q = (.ok (), q')) : ctx.attemptAll ops q = q' := by
  induction ops generalizing q with
  | nil =>
    cases h
    rfl
  | cons op rest ih =>
    obtain ⟨after, hop, hrest⟩ := applyAll_cons_cases h
    have hattempt : ctx.attemptAll (op :: rest) q = ctx.attemptAll rest after := by
      show ctx.attemptAll rest (ctx.apply op q).2 = _
      rw [hop]
    rw [hattempt]
    exact ih hrest

end Context

/-! ## 4. The invariant -/

/-- Without an order there is nothing to write for it. -/
theorem Shape.orderClause_of_nil {shape : Shape} (h : shape.order = []) :
    shape.orderClause = .ok (.ofText "") := by
  unfold orderClause
  rw [h]
  rfl

/-- Every entry of a projection comes from an insertion. -/
theorem Projection.mem_insert {path : Path} {e : Expr} {entry : Path × Expr} :
    ∀ {projection : Projection}, entry ∈ projection.insert path e →
      entry = (path, e) ∨ entry ∈ projection
  | [], h => Or.inl (List.mem_singleton.mp h)
  | (p, d) :: rest, h => by
    unfold insert at h
    split at h
    · rename_i hp
      subst hp
      rcases List.mem_cons.mp h with h | h
      · exact Or.inl h
      · exact Or.inr (List.mem_cons_of_mem _ h)
    · rcases List.mem_cons.mp h with h | h
      · rw [h]
        exact Or.inr List.mem_cons_self
      · rcases mem_insert h with h | h
        · exact Or.inl h
        · exact Or.inr (List.mem_cons_of_mem _ h)

theorem Projection.mem_ofList {entry : Path × Expr} {entries : List (Path × Expr)}
    (h : entry ∈ Projection.ofList entries) : entry ∈ entries := by
  have hfold : ∀ (entries : List (Path × Expr)) (start : Projection),
      entry ∈ entries.foldl (fun projection entry => projection.insert entry.1 entry.2) start →
        entry ∈ entries ∨ entry ∈ start := by
    intro entries
    induction entries with
    | nil => exact fun _ h => Or.inr h
    | cons e rest ih =>
      intro start h
      rcases ih _ h with h | h
      · exact Or.inl (List.mem_cons_of_mem e h)
      · rcases mem_insert h with rfl | h
        · exact Or.inl List.mem_cons_self
        · exact Or.inr h
  rcases hfold entries [] h with h | h
  · exact h
  · exact absurd h List.not_mem_nil

/-- A grounded query whose condition is scalar, whose projection holds whole rows and scalar values
    only, and which has no order. -/
structure Query.Renderable (model : Model) (root : Entity) (q : Query) : Prop where
  grounded : q.Grounded model root
  condition : ∀ e, q.shape.filter = some e → e.isScalar = true
  values : ∀ entry ∈ q.shape.projection, entry.2.isRow = true ∨ entry.2.isScalar = true
  unordered : q.shape.order = []

namespace Query

@[simp] theorem filtered_order (q : Query) (e : Expr) (memo : Memo) :
    (q.filtered e memo).shape.order = q.shape.order := by
  unfold filtered Shape.addFilter
  split <;> rfl

namespace Renderable

variable {model : Model} {root : Entity} {q : Query}

theorem start {entity : String} (h : model.find? entity = some root) :
    (Query.of root).Renderable model root where
  grounded := .start h
  condition := fun _ he => by cases he
  values := fun _ hentry => absurd hentry List.not_mem_nil
  unordered := rfl

theorem filtered (h : q.Renderable model root) {l : Lambda} {e : Expr}
    (he : model.context.condition? l q = some e) {memo : Memo} (hm : memo.Faithful root) :
    (q.filtered e memo).Renderable model root where
  grounded := h.grounded.filtered e hm
  condition := filtered_keeps (fun _ _ => Expr.isScalar_ofBinary) h.condition
    ((h.grounded.every_lambda l).of_value? he)
  values := by
    rw [filtered_projection]
    exact h.values
  unordered := by
    rw [filtered_order]
    exact h.unordered

theorem projected (h : q.Renderable model root) {l : Lambda} {b : Bound Term}
    (hb : model.context.projected? l q = some b) {memo : Memo} (hm : memo.Faithful root) :
    (q.projected b memo).Renderable model root where
  grounded := h.grounded.projected hb hm
  condition := h.condition
  values := by
    intro entry hentry
    rcases (Content.binds_of_bound _ hb).entry_cases (fun _ _ _ => trivial)
      (h.grounded.every_lambda l) entry (Projection.mem_ofList hentry) with hs | ⟨_, ref, he, _⟩
    · exact Or.inr hs
    · rw [he]
      exact Or.inl rfl
  unordered := h.unordered

/-- **One operator keeps the invariant**, whether it succeeds or fails. -/
theorem apply (h : q.Renderable model root) (op : Operator) :
    (model.context.apply op q).2.Renderable model root := by
  rcases Context.apply_cases h.grounded op with
    ⟨_, heq⟩ | ⟨l, e, memo, _, he, hm, heq⟩ | ⟨l, b, memo, _, hb, hm, heq⟩
  · rw [heq]
    exact h
  · rw [heq]
    exact h.filtered he hm
  · rw [heq]
    exact h.projected hb hm

/-- **Operators in turn keep the invariant.** -/
theorem attemptAll (h : q.Renderable model root) (ops : List Operator) :
    (model.context.attemptAll ops q).Renderable model root := by
  induction ops generalizing q with
  | nil => exact h
  | cons op rest ih => exact ih (h.apply op)

theorem of_source {entity : String} {start : Query} (h : model.context.source entity = .ok start)
    (ops : List Operator) : ∃ root, (model.context.attemptAll ops start).Renderable model root := by
  obtain ⟨root, hroot, rfl⟩ := Model.source_cases h
  exact ⟨root, (Renderable.start hroot).attemptAll ops⟩

theorem of_run {chain : Chain} (h : model.context.run chain = .ok q) :
    ∃ root, q.Renderable model root := by
  obtain ⟨entity, ops, start, _, hstart, happly⟩ := Context.run_cases h
  rw [← Context.attemptAll_of_applyAll happly]
  exact of_source hstart ops

/-- A query with the invariant has a statement. -/
theorem exists_statement (h : q.Renderable model root) : ∃ s, q.shape.statement = .ok s := by
  have hwhere : ∃ s, q.shape.whereClause = .ok s := by
    unfold Shape.whereClause
    cases hf : q.shape.filter with
    | none => exact ⟨_, rfl⟩
    | some e =>
      obtain ⟨s, hs⟩ := Expr.exists_render (Expr.rowFree_of_isScalar (h.condition e hf)) false
      refine ⟨.ofText " WHERE " ++ s, ?_⟩
      simp only [hs]
      rfl
  obtain ⟨condition, hcondition⟩ := hwhere
  unfold Shape.statement
  rw [hcondition, Shape.orderClause_of_nil h.unordered]
  exact ⟨_, rfl⟩

/-- A query with a condition has its text at the end of the statement, and its parameters. -/
theorem statement_of_filter (h : q.Renderable model root) {e : Expr}
    (he : q.shape.filter = some e) :
    ∃ condition s, e.render false = .ok condition ∧ q.shape.statement = .ok s ∧
      s.text = "SELECT " ++ q.shape.selectList ++ " FROM " ++ quoteName q.shape.source.table ++
        " WHERE " ++ condition.text ∧
      s.parameters = condition.parameters := by
  obtain ⟨condition, hcondition⟩ :=
    Expr.exists_render (Expr.rowFree_of_isScalar (h.condition e he)) false
  have hwhere : q.shape.whereClause = .ok (.ofText " WHERE " ++ condition) := by
    unfold Shape.whereClause
    rw [he]
    simp only [hcondition]
    rfl
  refine ⟨condition, .ofText ("SELECT " ++ q.shape.selectList ++ " FROM " ++
    quoteName q.shape.source.table) ++ (.ofText " WHERE " ++ condition) ++ .ofText "", hcondition,
    ?_, ?_, ?_⟩
  · unfold Shape.statement
    rw [hwhere, Shape.orderClause_of_nil h.unordered]
    rfl
  · simp [Statement.ofText, String.append_assoc]
  · simp

/-- Without a condition the statement ends with the table. -/
theorem statement_of_no_filter (h : q.Renderable model root) (hf : q.shape.filter = none) :
    ∃ s, q.shape.statement = .ok s ∧
      s.text = "SELECT " ++ q.shape.selectList ++ " FROM " ++ quoteName q.shape.source.table := by
  have hwhere : q.shape.whereClause = .ok (.ofText "") := by
    unfold Shape.whereClause
    rw [hf]
  refine ⟨.ofText ("SELECT " ++ q.shape.selectList ++ " FROM " ++
    quoteName q.shape.source.table) ++ .ofText "" ++ .ofText "", ?_, ?_⟩
  · unfold Shape.statement
    rw [hwhere, Shape.orderClause_of_nil h.unordered]
    rfl
  · simp [Statement.ofText]

end Renderable

end Query

/-! ## 5. Chains -/

namespace Model

/-- **Whatever has a query has a statement.** The query of every chain has one; and operators tried
    in turn, whatever their lambdas, lead to a query without a whole row anywhere in its condition,
    whose projected values are whole rows themselves or have none inside. -/
theorem whatever_translates_renders (model : Model) :
    (∀ (chain : Chain) (q : Query), model.context.run chain = .ok q →
      ∃ s, q.shape.statement = .ok s) ∧
    ∀ (entity : String) (start : Query) (ops : List Operator),
      model.context.source entity = .ok start →
        (∀ e, (model.context.attemptAll ops start).shape.filter = some e → e.RowFree) ∧
        ∀ entry ∈ (model.context.attemptAll ops start).shape.projection,
          entry.2.isRow = true ∨ entry.2.RowFree := by
  constructor
  · intro chain q h
    obtain ⟨root, hq⟩ := Query.Renderable.of_run h
    exact hq.exists_statement
  · intro entity start ops h
    obtain ⟨root, hq⟩ := Query.Renderable.of_source h ops
    refine ⟨fun e he => Expr.rowFree_of_isScalar (hq.condition e he), fun entry hentry => ?_⟩
    exact (hq.values entry hentry).imp_right Expr.rowFree_of_isScalar

/-- A chain with two filters, which projects a whole row, has a query and a statement. -/
theorem whatever_translates_renders_of_adults :
    ∃ q s, people.context.run (Chain.staged "Person" Stage.adults) = .ok q ∧
      q.shape.statement = .ok s ∧
      s.text = "SELECT * FROM \"Person\" WHERE BEGINS_WITH(\"Name\", ?) AND (\"age\" > ?)" := by
  obtain ⟨q, hq⟩ := (runs_staged_iff people "Person" Stage.adults).mpr ⟨.person, rfl, by decide⟩
  obtain ⟨s, hs⟩ := (whatever_translates_renders people).1 _ q hq
  refine ⟨q, s, hq, hs, ?_⟩
  have htext : ((people.context.statement (Chain.staged "Person" Stage.adults)).toOption.map
      Statement.text) =
        some "SELECT * FROM \"Person\" WHERE BEGINS_WITH(\"Name\", ?) AND (\"age\" > ?)" := by
    decide +kernel
  rw [Context.statement_of_run hq hs] at htext
  exact Option.some.inj htext

end Model

/-! ## 6. Texts -/

theorem exists_ok_of_toOption_bind {ε α β : Type} {r : Except ε α} {f : α → Option β} {b : β}
    (h : r.toOption.bind f = some b) : ∃ a, r = .ok a ∧ f a = some b := by
  cases r with
  | error failure => cases h
  | ok a => exact ⟨a, rfl, h⟩

/-- The predicate of a filter. -/
def Operator.predicate? : Operator → Option Lambda
  | .filter l => some l
  | _ => none

/-- The entity and the predicates of a chain of filters. -/
def Chain.filters? : Chain → Option (String × List Lambda)
  | .source entity :: ops => (ops.mapM Operator.predicate?).map fun ls => (entity, ls)
  | _ => none

/-- The entity and the predicates of a text that is a chain of filters. -/
def Chain.filtersOf? (text : String) : Option (String × List Lambda) :=
  (Chain.parse text).toOption.bind Chain.filters?

theorem Operator.eq_filters {ops : List Operator} {predicates : List Lambda}
    (h : ops.mapM Operator.predicate? = some predicates) : ops = predicates.map .filter := by
  induction ops generalizing predicates with
  | nil =>
    cases h
    rfl
  | cons op ops ih =>
    rw [List.mapM_cons] at h
    obtain ⟨l, hl, h⟩ := Option.bind_eq_some_iff.mp h
    obtain ⟨ls, hls, h⟩ := Option.bind_eq_some_iff.mp h
    cases h
    cases op with
    | filter m =>
      cases hl
      rw [List.map_cons, ih hls]
    | _ => cases hl

theorem Chain.parse_of_filtersOf? {text entity : String} {predicates : List Lambda}
    (h : Chain.filtersOf? text = some (entity, predicates)) :
    Chain.parse text = .ok (.source entity :: predicates.map .filter) := by
  obtain ⟨chain, hparse, h⟩ := exists_ok_of_toOption_bind h
  unfold filters? at h
  split at h
  · obtain ⟨ls, hls, heq⟩ := Option.map_eq_some_iff.mp h
    cases heq
    rw [hparse, Operator.eq_filters hls]
  · cases h

namespace Model

/-- The condition that a text leads to. -/
def conditionOf? (model : Model) (text : String) : Option Expr :=
  (Chain.parse text).toOption.bind fun chain =>
    (model.context.run chain).toOption.bind fun q => q.shape.filter

theorem exists_of_conditionOf? {model : Model} {text : String} {e : Expr}
    (h : model.conditionOf? text = some e) :
    ∃ chain q, Chain.parse text = .ok chain ∧ model.context.run chain = .ok q ∧
      q.shape.filter = some e := by
  obtain ⟨chain, hparse, h⟩ := exists_ok_of_toOption_bind h
  obtain ⟨q, hrun, hfilter⟩ := exists_ok_of_toOption_bind h
  exact ⟨chain, q, hparse, hrun, hfilter⟩

/-- People who may be active. -/
def members : Model where
  entities := [{ name := "Person"
                 properties := Entity.person.properties ++ [{ name := "Active", type := .bool }] }]

end Model

end EntityQuery
