import EntityQuery.Proofs.Diagnostics.Parts
import EntityQuery.Proofs.Rollback

/-!
Diagnostics match outcomes.

* `Context.applyNoting` -- the operators of a query with a translator that takes notes: a projection
  that fails says only that a part has no translation, and the details are taken from the
  translator;
* `Reports`, `Context.applyNoting_eq` -- **they do what the operators do without notes**;
* `Context.diagnostics_match_outcomes` -- **there are details exactly if there is no translation,
  they are those of the first part that fails, and every untranslatable lambda carries them**.
-/
namespace EntityQuery

/-! ## 1. Operators with a translator that takes notes -/

/-- Why an operator is turned down: its lambda has no translation, and the translator has these
    details; or something else is wrong. -/
inductive Rejection where
  | untranslatable (lambda : Lambda) (details : Option String)
  | other (failure : Failure)

/-- A failure as a translator reports it. -/
def Failure.rejection : Failure → Rejection
  | .blocked lambda cause => .untranslatable lambda (some cause.message)
  | failure => .other failure

/-- Why a part of a row cannot be placed. That a translation failed is all that is said of it: the
    details are with the translator. -/
inductive PlaceFault where
  | untranslatable
  | lostRow (entity : String) (path : Path)

/-- What is reported of a row that cannot be placed, with the details that the translator has. -/
def PlaceFault.rejection (selector : Lambda) (details : Option String) : PlaceFault → Rejection
  | .untranslatable => .untranslatable selector details
  | .lostRow entity path => .other (.lostRow entity path)

/-- Placing parts of a row with the translator of a session. -/
abbrev Placing (α : Type) := ExceptT PlaceFault (StateM Session) α

namespace Context

/-- A value at a path. -/
def placeValue (ctx : Context) (path : Path) (t : Term) : Placing (Bound Term) := fun s =>
  match ctx.translate t s with
  | (some e, s') => (.ok { row := .binding path, entries := [(path, e)] }, s')
  | (none, s') => (.error .untranslatable, s')

/-- A whole row at a path. -/
def placeRow (path : Path) (entity : String) (bound : Path) : Placing (Bound Term) := fun s =>
  match s.shape.rowAt? bound with
  | some ref => (.ok { row := .entity entity path, entries := [(path, .row ref)] }, s)
  | none => (.error (.lostRow entity bound), s)

mutual
/-- A term at a path, the members of an object construction one label further. -/
def place (ctx : Context) (path : Path) (t : Term) : Placing (Bound Term) :=
  match h : t.resolve with
  | .object members => do
    have := Term.sizeOf_members_lt h
    let b ← placeMembers ctx path members
    return { row := .object b.row, entries := b.entries }
  | .entity name bound => placeRow path name bound
  | leaf => placeValue ctx path leaf
termination_by sizeOf t

/-- The members of an object construction in turn. -/
def placeMembers (ctx : Context) (path : Path) (members : List (String × Term)) :
    Placing (Bound (List (String × Term))) :=
  match members with
  | [] => return { row := [], entries := [] }
  | (label, t) :: rest => do
    let b ← place ctx (path.append label) t
    let bs ← placeMembers ctx path rest
    return { row := (label, b.row) :: bs.row, entries := b.entries ++ bs.entries }
termination_by sizeOf members
end

/-- A further condition, with a translator that has these details from before. -/
def filterNoting (ctx : Context) (predicate : Lambda) (q : Query) (details : Option String) :
    Except Rejection Unit × Query × Option String :=
  match ctx.translate (predicate.apply q.row) ⟨q.shape, details⟩ with
  | (some condition, s) => (.ok (), { q with shape := s.shape.addFilter condition }, s.details)
  | (none, s) =>
    (.error (.untranslatable predicate s.details),
      q.withMemo (s.shape.memo.take q.shape.memo.length), s.details)

/-- Other rows, with such a translator. -/
def projectNoting (ctx : Context) (selector : Lambda) (q : Query) (details : Option String) :
    Except Rejection Unit × Query × Option String :=
  match ctx.place .root (selector.apply q.row) ⟨q.shape, details⟩ with
  | (.ok bound, s) =>
    (.ok (), { shape := { s.shape with projection := .ofList bound.entries }, row := bound.row },
      s.details)
  | (.error fault, s) =>
    (.error (fault.rejection selector s.details),
      q.withMemo (s.shape.memo.take q.shape.memo.length), s.details)

/-- One operator, with such a translator. -/
def applyNoting (ctx : Context) (op : Operator) (q : Query) (details : Option String) :
    Except Rejection Unit × Query × Option String :=
  match op with
  | .filter predicate => ctx.filterNoting predicate q details
  | .project selector => ctx.projectNoting selector q details
  | op => ((ctx.apply op q).1.mapError .other, (ctx.apply op q).2, details)

end Context

/-- The fault without the obstacle. -/
def BindFault.placeFault : BindFault → PlaceFault
  | .obstacle _ => .untranslatable
  | .lostRow entity path => .lostRow entity path

/-- Placing has the outcome of binding, and if binding meets an obstacle, its message is noted when
    placing ends. What else is noted then does not count. -/
def Reports {α : Type} (shape : Shape) (x : Placing α) (y : Using BindFault α) : Prop :=
  ∀ memo details, ∃ details', x ⟨{ shape with memo := memo }, details⟩ =
      ((y memo).1.mapError BindFault.placeFault, ⟨{ shape with memo := (y memo).2 }, details'⟩) ∧
    ∀ cause, (y memo).1 = .error (.obstacle cause) → details' = some cause.message

namespace Reports

variable {α β : Type} {shape : Shape}

theorem pure (a : α) : Reports shape (Pure.pure a) (Pure.pure a) :=
  fun _ details => ⟨details, rfl, fun _ h => by cases h⟩

theorem bind {x : Placing α} {y : Using BindFault α} {f : α → Placing β}
    {g : α → Using BindFault β} (hx : Reports shape x y) (hf : ∀ a, Reports shape (f a) (g a)) :
    Reports shape (x >>= f) (y >>= g) := by
  intro memo details
  obtain ⟨details₁, h, hnoted⟩ := hx memo details
  have hbind : (x >>= f) ⟨{ shape with memo := memo }, details⟩ = ExceptT.bindCont f
      (x ⟨{ shape with memo := memo }, details⟩).1 (x ⟨{ shape with memo := memo }, details⟩).2 := rfl
  rw [hbind, h]
  rcases hy : y memo with ⟨r, memo'⟩
  rw [hy] at hnoted
  cases r with
  | ok a =>
    rw [Using.bind_of_ok hy]
    exact hf a memo' details₁
  | error fault =>
    rw [Using.bind_of_error hy]
    refine ⟨details₁, rfl, fun cause hcause => hnoted cause ?_⟩
    cases hcause
    rfl

end Reports

namespace Context

variable {ctx : Context} {shape : Shape}

theorem placeValue_reports (path : Path) (t : Term) :
    Reports shape (ctx.placeValue path t) (ctx.bindValue shape path t) := by
  intro memo details
  have ht := ctx.translate_eq shape t memo details
  unfold placeValue bindValue
  rw [ht]
  rcases ctx.lower shape t memo with ⟨r, memo'⟩
  cases r with
  | ok e => exact ⟨none, rfl, fun _ h => by cases h⟩
  | error cause =>
    refine ⟨some cause.message, rfl, fun cause' h => ?_⟩
    cases h
    rfl

theorem placeRow_reports (path : Path) (entity : String) (bound : Path) :
    Reports shape (placeRow path entity bound) (liftM (bindRow shape path entity bound)) := by
  intro memo details
  have hrow : Shape.rowAt? { shape with memo := memo } bound = shape.rowAt? bound := rfl
  refine ⟨details, ?_, fun cause h => ?_⟩
  · simp only [placeRow, hrow]
    show _ = ((bindRow shape path entity bound).mapError BindFault.placeFault, _)
    unfold bindRow
    cases shape.rowAt? bound <;> rfl
  · have hfails : bindRow shape path entity bound = .error (.obstacle cause) := h
    unfold bindRow at hfails
    split at hfails <;> cases hfails

section Terms

variable {path : Path} {t : Term}

theorem bind_of_object {members : List (String × Term)} (h : t.resolve = .object members) :
    ctx.bind shape path t = (do
      let b ← ctx.bindMembers shape path members
      return { row := .object b.row, entries := b.entries }) := by
  rw [bind]
  split <;> simp_all

theorem bind_of_row {name : String} {bound : Path} (h : t.resolve = .entity name bound) :
    ctx.bind shape path t = liftM (bindRow shape path name bound) := by
  rw [bind]
  split <;> simp_all

theorem bind_of_leaf (hobject : ∀ members, t.resolve ≠ .object members)
    (hrow : ∀ name bound, t.resolve ≠ .entity name bound) :
    ctx.bind shape path t = ctx.bindValue shape path t.resolve := by
  rw [bind]
  split <;> simp_all

end Terms

mutual
/-- **A row is placed as it is bound.** -/
theorem place_reports (path : Path) (t : Term) :
    Reports shape (ctx.place path t) (ctx.bind shape path t) := by
  rw [place]
  split
  · rename_i members ht
    have := Term.sizeOf_members_lt ht
    rw [bind_of_object ht]
    exact .bind (placeMembers_reports path members) fun _ => .pure _
  · rename_i name bound ht
    rw [bind_of_row ht]
    exact placeRow_reports path name bound
  · rename_i hobject hrow
    rw [bind_of_leaf hobject hrow]
    exact placeValue_reports path t.resolve
termination_by sizeOf t

theorem placeMembers_reports (path : Path) (members : List (String × Term)) :
    Reports shape (ctx.placeMembers path members) (ctx.bindMembers shape path members) := by
  match members with
  | [] =>
    rw [placeMembers, bindMembers]
    exact .pure _
  | (label, t) :: rest =>
    rw [placeMembers, bindMembers]
    exact .bind (place_reports (path.append label) t) fun _ =>
      .bind (placeMembers_reports path rest) fun _ => .pure _
termination_by sizeOf members
end

theorem filterNoting_eq (predicate : Lambda) (q : Query) (details : Option String) :
    (ctx.filterNoting predicate q details).1 =
        (ctx.filter predicate q).1.mapError Failure.rejection ∧
      (ctx.filterNoting predicate q details).2.1 = (ctx.filter predicate q).2 := by
  have ht := ctx.translate_eq q.shape (predicate.apply q.row) q.shape.memo details
  have hsession : (⟨{ q.shape with memo := q.shape.memo }, details⟩ : Session) = ⟨q.shape, details⟩ :=
    rfl
  unfold filterNoting filter
  rw [← hsession, ht]
  rcases ctx.lower q.shape (predicate.apply q.row) q.shape.memo with ⟨r, memo⟩
  cases r <;> exact ⟨rfl, rfl⟩

theorem projectNoting_eq (selector : Lambda) (q : Query) (details : Option String) :
    (ctx.projectNoting selector q details).1 =
        (ctx.project selector q).1.mapError Failure.rejection ∧
      (ctx.projectNoting selector q details).2.1 = (ctx.project selector q).2 := by
  have hreports : Reports q.shape (ctx.place .root (selector.apply q.row))
      (ctx.bind q.shape .root (selector.apply q.row)) := place_reports .root (selector.apply q.row)
  obtain ⟨details', hplace, hnoted⟩ := hreports q.shape.memo details
  have hsession : (⟨{ q.shape with memo := q.shape.memo }, details⟩ : Session) = ⟨q.shape, details⟩ :=
    rfl
  unfold projectNoting project
  rw [← hsession, hplace]
  rcases hbind : ctx.bind q.shape .root (selector.apply q.row) q.shape.memo with ⟨r, memo⟩
  rw [hbind] at hnoted
  cases r with
  | ok b => exact ⟨rfl, rfl⟩
  | error fault =>
    cases fault with
    | obstacle cause =>
      obtain rfl := hnoted cause rfl
      exact ⟨rfl, rfl⟩
    | lostRow entity path => exact ⟨rfl, rfl⟩

/-- **An operator is applied and turned down as without notes**, and what is reported is the failure
    with the message of its obstacle. -/
theorem applyNoting_eq (op : Operator) (q : Query) (details : Option String) :
    (ctx.applyNoting op q details).1 = (ctx.apply op q).1.mapError Failure.rejection ∧
      (ctx.applyNoting op q details).2.1 = (ctx.apply op q).2 := by
  cases op with
  | filter predicate => exact filterNoting_eq predicate q details
  | project selector => exact projectNoting_eq selector q details
  | _ => exact ⟨rfl, rfl⟩

end Context

/-- Only an obstacle is reported as an untranslatable lambda, and with its message. -/
theorem Failure.rejection_eq_untranslatable {failure : Failure} {l : Lambda}
    {details : Option String} (h : failure.rejection = .untranslatable l details) :
    ∃ cause, failure = .blocked l cause ∧ details = some cause.message := by
  cases failure with
  | blocked l' cause =>
    cases h
    exact ⟨cause, rfl, rfl⟩
  | _ => cases h

/-! ## 2. Diagnostics -/

namespace Context

/-- **Diagnostics match outcomes.** Whatever the term, the shape and the details from before: a
    translation finds what lowering finds; it leaves details exactly if it fails; and it fails
    exactly if one of the parts of the term fails when they are translated one by one, with the
    details of the first that does. That part, translated alone in the same shape, leaves the same
    details again; over the rows of one entity it does so also in the shape as it was at the start.
    And an operator with such a translator does what it does without notes, and reports an
    untranslatable lambda never without details. -/
theorem diagnostics_match_outcomes (ctx : Context) :
    (∀ (t : Term) (s s' : Session),
      ctx.translate t s = Session.noting s.shape none (ctx.lower s.shape t s.shape.memo) ∧
      ((ctx.translate t s).1 = none ↔ (ctx.translate t s).2.details.isSome = true) ∧
      (ctx.translate t s = (none, s') ↔ ∃ u, FirstFailure ctx t.visited s u s') ∧
      ∀ u, FirstFailure ctx t.visited s u s' →
        ctx.translate u s' = (none, s') ∧
        ∀ root, s.shape.Rooted ctx.model root → s.shape.memo.Faithful root →
          (ctx.translate u s).1 = none ∧ (ctx.translate u s).2.details = s'.details) ∧
    ∀ (op : Operator) (q : Query) (earlier : Option String),
      (ctx.applyNoting op q earlier).1 = (ctx.apply op q).1.mapError Failure.rejection ∧
      (ctx.applyNoting op q earlier).2.1 = (ctx.apply op q).2 ∧
      ∀ l details, (ctx.applyNoting op q earlier).1 = .error (.untranslatable l details) →
        ∃ cause, (ctx.apply op q).1 = .error (.blocked l cause) ∧ details = some cause.message := by
  refine ⟨fun t s s' => ?_, fun op q earlier => ?_⟩
  · have ht := ctx.translate_eq s.shape t s.shape.memo s.details
    have hsession : (⟨{ s.shape with memo := s.shape.memo }, s.details⟩ : Session) = s := rfl
    rw [hsession] at ht
    refine ⟨ht, ?_, translate_eq_none_iff t s s', fun u hfirst => ⟨?_, fun root hroot hmemo =>
      translate_firstFailure hroot hmemo hfirst⟩⟩
    · rw [ht]
      rcases ctx.lower s.shape t s.shape.memo with ⟨r, memo⟩
      cases r <;> simp [Session.noting]
    · obtain ⟨before, hbefore⟩ := hfirst.fails
      exact translate_again hbefore
  · obtain ⟨hresult, hquery⟩ := ctx.applyNoting_eq op q earlier
    refine ⟨hresult, hquery, fun l details hreport => ?_⟩
    rw [hresult] at hreport
    cases happly : (ctx.apply op q).1 with
    | ok _ =>
      rw [happly] at hreport
      cases hreport
    | error failure =>
      rw [happly] at hreport
      obtain ⟨cause, rfl, hdetails⟩ := Failure.rejection_eq_untranslatable (Except.error.inj hreport)
      exact ⟨cause, rfl, hdetails⟩

end Context

/-- A sum, which has no translation, compared with a member that no person has. -/
def Lambda.manyObstacles : Lambda where
  parameter := "p"
  body := .binary .equal
    (.binary .add (.member (.parameter "p") "Age") (.ofLiteral (.int32 1)))
    (.member (.parameter "p") "Height")

/-- The age of a person. -/
def Term.personAge : Term := .member (.entity "Person" .root) "Age"

/-- The sum in `Lambda.manyObstacles`. -/
def Term.ageAndOne : Term := .binary .add .personAge (.ofLiteral (.int32 1))

/-- A session over people, with the details of an earlier failure. -/
def Session.stale : Session := ⟨.of .person, some "unbound parameter 'q'"⟩

/-- The parts of the condition in their order: the sum stands before the unknown member. -/
theorem Lambda.visited_manyObstacles :
    (Lambda.manyObstacles.apply (Query.of .person).row).visited =
      [.personAge, .ofLiteral (.int32 1), .ageAndOne, .member (.entity "Person" .root) "Height",
        Lambda.manyObstacles.apply (Query.of .person).row] := by
  have hbody : Lambda.manyObstacles.apply (Query.of .person).row =
      .binary .equal .ageAndOne (.member (.entity "Person" .root) "Height") := rfl
  have hrow : (Term.entity "Person" .root).resolve = .entity "Person" .root := rfl
  rw [hbody]
  simp [Term.visited_eq, Term.operands, Term.ageAndOne, Term.personAge, Term.ofLiteral, hrow]

theorem Context.diagnostics_match_outcomes_of_manyObstacles :
    Shape.Rooted .people .person Session.stale.shape ∧
    Session.stale.shape.memo.Faithful .person ∧
    ∃ s, FirstFailure { model := .people }
        (Lambda.manyObstacles.apply (Query.of .person).row).visited .stale .ageAndOne s ∧
      Context.translate { model := .people } (Lambda.manyObstacles.apply (Query.of .person).row)
        .stale = (none, s) ∧
      s.details = some "binary operator '+' has no PartiQL equivalent" ∧
      Context.translate { model := .people } .ageAndOne s = (none, s) ∧
      (Context.translate { model := .people } .ageAndOne .stale).2.details = s.details ∧
      ∃ cause, (Context.apply { model := .people } (.filter .manyObstacles) (.of .person)).1 =
          .error (.blocked .manyObstacles cause) ∧ s.details = some cause.message := by
  have hrooted : Shape.Rooted .people .person Session.stale.shape :=
    ⟨rfl, rfl, fun _ _ h => by cases h⟩
  have hfaithful : Session.stale.shape.memo.Faithful .person := Memo.faithful_nil _
  obtain ⟨hterms, hoperators⟩ := diagnostics_match_outcomes { model := .people }
  obtain ⟨s, hfirst, hdetails⟩ : ∃ s, FirstFailure { model := .people }
      (Lambda.manyObstacles.apply (Query.of .person).row).visited .stale .ageAndOne s ∧
      s.details = some "binary operator '+' has no PartiQL equivalent" := by
    rw [Lambda.visited_manyObstacles]
    exact ⟨_, .later_of_isSome (by decide +kernel) (.later_of_isSome (by decide +kernel)
      (.here_of_isNone (by decide +kernel) _)), by decide +kernel⟩
  obtain ⟨-, -, hfails, hpart⟩ := hterms (Lambda.manyObstacles.apply (Query.of .person).row) .stale s
  have htranslate := hfails.mpr ⟨_, hfirst⟩
  have hreport : (Context.applyNoting { model := .people } (.filter .manyObstacles) (.of .person)
      Session.stale.details).1 = .error (.untranslatable .manyObstacles s.details) := by
    have hsame : (⟨(Query.of .person).shape, Session.stale.details⟩ : Session) = .stale := rfl
    simp only [applyNoting, filterNoting, hsame, htranslate]
  obtain ⟨hagain, hstart⟩ := hpart _ hfirst
  exact ⟨hrooted, hfaithful, s, hfirst, htranslate, hdetails, hagain,
    (hstart _ hrooted hfaithful).2, (hoperators _ _ _).2.2 _ _ hreport⟩

end EntityQuery
