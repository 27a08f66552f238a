import EntityQuery.Failure
import EntityQuery.Term.Substitution

/-!
Queries under way, and the operators applied to them.

* `Query` -- a shape, and the term that stands for one of its rows in the next lambda;
* `Context.bind` -- a term as a projection: every part that is no object construction is bound at
  the path of the labels that lead to it, and the row of the result refers to those paths;
* `Context.apply` -- one operator; if it fails, the query is as it was before;
* `Context.run` -- a whole chain, which starts from an entity;
* `Context.statement` -- the statement of a chain.
-/
namespace EntityQuery

/-- A query under way: its shape, and the term for one of its rows. -/
structure Query where
  shape : Shape
  row : Term

namespace Query

/-- All rows of an entity. -/
def of (entity : Entity) : Query :=
  { shape := .of entity, row := .entity entity.name .root }

/-- The query with other attributes in use. -/
def withMemo (q : Query) (memo : Memo) : Query := { q with shape := { q.shape with memo := memo } }

end Query

/-! ## 1. Projections -/

/-- Why a term cannot be projected. -/
inductive BindFault where
  | obstacle (cause : Obstacle)
  | lostRow (entity : String) (path : Path)

/-- The failure of the projection by a lambda. -/
def BindFault.failure (selector : Lambda) : BindFault → Failure
  | .obstacle cause => .blocked selector cause
  | .lostRow entity path => .lostRow entity path

/-- The term for a projected row, and what is bound for it in order. -/
structure Bound (α : Type) where
  row : α
  entries : List (Path × Expr)

namespace Context

/-- A value bound at a path. -/
def bindValue (ctx : Context) (shape : Shape) (path : Path) (t : Term) :
    Using BindFault (Bound Term) := fun memo =>
  match ctx.lower shape t memo with
  | (.ok e, memo') => (.ok { row := .binding path, entries := [(path, e)] }, memo')
  | (.error cause, memo') => (.error (.obstacle cause), memo')

/-- A whole row, found where it is bound now, bound at a path. -/
def bindRow (shape : Shape) (path : Path) (entity : String) (bound : Path) :
    Except BindFault (Bound Term) :=
  match shape.rowAt? bound with
  | some ref => .ok { row := .entity entity path, entries := [(path, .row ref)] }
  | none => .error (.lostRow entity bound)

mutual
/-- A term bound at a path, the members of an object construction one label further. -/
def bind (ctx : Context) (shape : Shape) (path : Path) (t : Term) :
    Using BindFault (Bound Term) :=
  match h : t.resolve with
  | .object members => do
    have := t.sizeOf_resolve_le
    have : sizeOf members < sizeOf t := by
      rw [h] at this
      simp at this
      omega
    let b ← bindMembers ctx shape path members
    return { row := .object b.row, entries := b.entries }
  | .entity name bound => bindRow shape path name bound
  | leaf => bindValue ctx shape path leaf
termination_by sizeOf t

/-- The members of an object construction in turn. -/
def bindMembers (ctx : Context) (shape : Shape) (path : Path) (members : List (String × Term)) :
    Using BindFault (Bound (List (String × Term))) :=
  match members with
  | [] => return { row := [], entries := [] }
  | (label, t) :: rest => do
    let b ← bind ctx shape (path.append label) t
    let bs ← bindMembers ctx shape path rest
    return { row := (label, b.row) :: bs.row, entries := b.entries ++ bs.entries }
termination_by sizeOf members
end

/-! ## 2. Operators -/

/-- A further condition. If there is an obstacle, the attributes taken into use on the way to it are
    given up again. -/
def filter (ctx : Context) (predicate : Lambda) (q : Query) : Except Failure Unit × Query :=
  match ctx.lower q.shape (predicate.apply q.row) q.shape.memo with
  | (.ok condition, memo) =>
    let q := q.withMemo memo
    (.ok (), { q with shape := q.shape.addFilter condition })
  | (.error cause, memo) =>
    (.error (.blocked predicate cause), q.withMemo (memo.take q.shape.memo.length))

/-- Other rows in place of those there are, with the same care for the attributes in use. -/
def project (ctx : Context) (selector : Lambda) (q : Query) : Except Failure Unit × Query :=
  match ctx.bind q.shape .root (selector.apply q.row) q.shape.memo with
  | (.ok bound, memo) =>
    let q := q.withMemo memo
    (.ok (), { shape := { q.shape with projection := .ofList bound.entries }, row := bound.row })
  | (.error fault, memo) =>
    (.error (fault.failure selector), q.withMemo (memo.take q.shape.memo.length))

/-- One operator after the source. -/
def apply (ctx : Context) (op : Operator) (q : Query) : Except Failure Unit × Query :=
  match op with
  | .source _ => (.error (.invalidChain .secondSource), q)
  | .filter predicate => ctx.filter predicate q
  | .project selector => ctx.project selector q
  | op => (.error (.unsupported op.name), q)

/-- Operators in turn up to the first failure. -/
def applyAll (ctx : Context) : List Operator → Query → Except Failure Unit × Query
  | [], q => (.ok (), q)
  | op :: rest, q =>
    match ctx.apply op q with
    | (.ok (), q) => applyAll ctx rest q
    | (.error failure, q) => (.error failure, q)

/-- All rows of the entity with a name. -/
def source (ctx : Context) (entity : String) : Except Failure Query := do
  let e ← ctx.model.get entity
  return .of e

/-! ## 3. Chains -/

/-- The query of a chain. -/
def run (ctx : Context) : Chain → Except Failure Query
  | [] => .error (.invalidChain .empty)
  | .source entity :: rest => do
    let q ← ctx.source entity
    match ctx.applyAll rest q with
    | (.ok (), q) => return q
    | (.error failure, _) => .error failure
  | op :: _ => .error (.invalidChain (.noSource op.name))

end Context

/-- The statement of a shape, or the failure to write it. -/
def Shape.rendered (shape : Shape) : Except Failure Statement :=
  match shape.statement with
  | .ok s => .ok s
  | .error fault => .error (.unrenderable fault)

/-- The statement of a chain. -/
def Context.statement (ctx : Context) (chain : Chain) : Except Failure Statement := do
  let q ← ctx.run chain
  q.shape.rendered

/-- The chain that a text says. -/
def Chain.parse (text : String) : Except Failure Chain :=
  match Chain.read text with
  | .ok chain => .ok chain
  | .error fault => .error (.unreadable fault)

end EntityQuery
