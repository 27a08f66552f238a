import EntityQuery.Lowering.Growth

/-!
An operator that fails leaves no trace.

Lowering takes attributes into use on its way, also on the way to an obstacle. A filter or a
projection that fails cuts the attributes in use back to as many as there were before it; since
lowering only adds at the end (`Grows`), these are the ones there were.

* `Context.attemptAll` -- operators in turn, where one that fails is passed over;
* `Context.succeeding` -- the operators that succeed in such a run;
* `Context.apply_error` -- a failed operator gives back the query it was given;
* `Context.failed_operators_leave_no_trace` -- so passing over the failed operators comes to the
  same as never trying them.
-/
namespace EntityQuery

namespace Grows

variable {ε α : Type} {x : Using ε α}

/-- Cutting back to the number of attributes in use before gives back those attributes. -/
theorem take_eq (hx : Grows x) (memo : Memo) : (x memo).2.take memo.length = memo := by
  obtain ⟨more, hmore⟩ := hx memo
  rw [← hmore]
  exact List.take_left

/-- A query whose attributes in use are cut back is the query there was. -/
theorem withMemo_take (hx : Grows x) (q : Query) :
    q.withMemo ((x q.shape.memo).2.take q.shape.memo.length) = q := by
  rw [hx.take_eq]
  rfl

end Grows

namespace Context

/-! ## 1. One operator -/

theorem filter_error {ctx : Context} {predicate : Lambda} {q q' : Query} {failure : Failure}
    (h : ctx.filter predicate q = (.error failure, q')) : q' = q := by
  have hcut := (grows_lower ctx q.shape (predicate.apply q.row)).withMemo_take q
  unfold filter at h
  split at h
  · cases h
  · rename_i cause memo hl
    rw [hl] at hcut
    have hq : q.withMemo (memo.take q.shape.memo.length) = q' := congrArg Prod.snd h
    rw [← hq]
    exact hcut

theorem project_error {ctx : Context} {selector : Lambda} {q q' : Query} {failure : Failure}
    (h : ctx.project selector q = (.error failure, q')) : q' = q := by
  have hcut := (grows_bind ctx q.shape .root (selector.apply q.row)).withMemo_take q
  unfold project at h
  split at h
  · cases h
  · rename_i fault memo hb
    rw [hb] at hcut
    have hq : q.withMemo (memo.take q.shape.memo.length) = q' := congrArg Prod.snd h
    rw [← hq]
    exact hcut

/-- **A failed operator gives back the query it was given**, whatever the rules for calls and
    whatever the query. -/
theorem apply_error {ctx : Context} {op : Operator} {q q' : Query} {failure : Failure}
    (h : ctx.apply op q = (.error failure, q')) : q' = q := by
  cases op with
  | filter predicate => exact filter_error h
  | project selector => exact project_error h
  | _ => exact (congrArg Prod.snd h).symm

/-! ## 2. Many operators -/

theorem applyAll_cons_ok {ctx : Context} {op : Operator} {q q' : Query}
    (h : ctx.apply op q = (.ok (), q')) (ops : List Operator) :
    ctx.applyAll (op :: ops) q = ctx.applyAll ops q' := by
  rw [applyAll, h]

theorem applyAll_cons_error {ctx : Context} {op : Operator} {q q' : Query} {failure : Failure}
    (h : ctx.apply op q = (.error failure, q')) (ops : List Operator) :
    ctx.applyAll (op :: ops) q = (.error failure, q') := by
  rw [applyAll, h]

/-- Operators in turn. One that fails is passed over, with whatever it leaves behind. -/
def attemptAll (ctx : Context) (ops : List Operator) (q : Query) : Query :=
  ops.foldl (fun q op => (ctx.apply op q).2) q

/-- The operators that succeed when all are tried in turn. -/
def succeeding (ctx : Context) : List Operator → Query → List Operator
  | [], _ => []
  | op :: rest, q =>
    match ctx.apply op q with
    | (.ok (), q) => op :: succeeding ctx rest q
    | (.error _, q) => succeeding ctx rest q

theorem applyAll_succeeding (ctx : Context) (ops : List Operator) (q : Query) :
    ctx.applyAll (ctx.succeeding ops q) q = (.ok (), ctx.attemptAll ops q) := by
  induction ops generalizing q with
  | nil => rfl
  | cons op rest ih =>
    rcases hop : ctx.apply op q with ⟨outcome, after⟩
    have hattempt : ctx.attemptAll (op :: rest) q = ctx.attemptAll rest after := by
      show ctx.attemptAll rest (ctx.apply op q).2 = _
      rw [hop]
    rw [hattempt, succeeding, hop]
    cases outcome with
    | ok _ =>
      show ctx.applyAll (op :: ctx.succeeding rest after) q = _
      rw [applyAll_cons_ok hop]
      exact ih after
    | error failure =>
      -- the query after the failure is the one before it, so the rest starts from the same
      have hsame := apply_error hop
      subst hsame
      exact ih after

end Context

/-! ## 3. No trace -/

/-- A person with a name and an age, which is stored under another name. -/
def Entity.person : Entity where
  name := "Person"
  properties :=
    [{ name := "Name", type := .string }, { name := "Age", type := .int32, storedAs := some "age" }]

/-- A model of people. -/
def Model.people : Model := { entities := [.person] }

/-- A condition on the age of a person and on something that no person has. -/
def Lambda.unknownMember : Lambda where
  parameter := "p"
  body := .binary .less (.member (.parameter "p") "Age") (.member (.parameter "p") "Height")

namespace Context

/-- **Failed operators leave no trace.** An operator that fails gives back the query it was given;
    and operators tried in turn lead to the query to which those of them that succeed lead, one
    after another and without a failure. -/
theorem failed_operators_leave_no_trace (ctx : Context) :
    (∀ (op : Operator) (q q' : Query) (failure : Failure),
      ctx.apply op q = (.error failure, q') → q' = q) ∧
    ∀ (ops : List Operator) (q : Query),
      ctx.applyAll (ctx.succeeding ops q) q = (.ok (), ctx.attemptAll ops q) :=
  ⟨fun _ _ _ _ h => apply_error h, ctx.applyAll_succeeding⟩

/-- A filter that has taken an attribute into use before it fails gives it up. -/
theorem failed_operators_leave_no_trace_of_attributes :
    (Context.lower { model := .people } (.of .person)
      (Lambda.unknownMember.apply (Query.of .person).row) []).2.length = 1 ∧
    ∃ failure, Context.apply { model := .people } (.filter .unknownMember) (.of .person) =
      (.error failure, .of .person) := by
  refine ⟨by decide +kernel, ?_⟩
  have hfails : (Context.apply { model := .people } (.filter .unknownMember)
      (.of .person)).1.toOption = none := by decide +kernel
  rcases h : Context.apply { model := .people } (.filter .unknownMember) (.of .person) with
    ⟨result, q⟩
  rw [h] at hfails
  cases result with
  | ok _ => cases hfails
  | error failure =>
    have hq := (failed_operators_leave_no_trace { model := .people }).1 _ _ _ _ h
    exact ⟨failure, by rw [hq]⟩

end Context

end EntityQuery
