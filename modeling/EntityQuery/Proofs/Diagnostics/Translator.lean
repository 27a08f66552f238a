import EntityQuery.Lowering.Growth

/-!
A translator that takes notes.

Lowering gives back an obstacle together with the failure, so that one cannot be without the other.
A translator that keeps the details of a failure in a place of their own, written by whatever part
of a term fails and read after the whole term has failed, could lose them, keep old ones or put
later ones over them.

* `Session` -- the shape that a translator works on, and the place for the details;
* `Context.translate` -- the translation of a term;
* `Tracks` -- a translation has the outcome of a computation, and notes what stopped it;
* `Context.translate_eq` -- **a term is translated as it is lowered**, and the message of the
  obstacle is what is noted.
-/
namespace EntityQuery

/-! ## 1. A translator that takes notes -/

/-- A translator at work: the shape in which it takes attributes into use, and the details of the
    last failure. -/
structure Session where
  shape : Shape
  details : Option String

/-- A translation: a result or none, and the session afterwards. -/
abbrev Translation (α : Type) := OptionT (StateM Session) α

namespace Translation

variable {α β : Type}

/-- No result, and a note of why there is none. -/
def fail (details : String) : Translation α := fun s => (none, { s with details := some details })

/-- What a single step finds; an obstacle is noted. -/
def step : Except Obstacle α → Translation α
  | .ok a => pure a
  | .error cause => fail cause.message

theorem bind_of_some {x : Translation α} {s s' : Session} {a : α} (h : x s = (some a, s'))
    (f : α → Translation β) : (x >>= f) s = f a s' := by
  show (OptionT.bind x f) s = _
  simp only [OptionT.bind, OptionT.mk, bind, StateT.bind]
  rw [h]

theorem bind_of_none {x : Translation α} {s s' : Session} (h : x s = (none, s'))
    (f : α → Translation β) : (x >>= f) s = (none, s') := by
  show (OptionT.bind x f) s = _
  simp only [OptionT.bind, OptionT.mk, bind, StateT.bind]
  rw [h]
  rfl

end Translation

namespace Context

open Translation

/-- A member of a row. Its attribute is in use in the shape of the session from then on. -/
def visitField (ctx : Context) (name : String) (path : Path) (label : String) : Translation Expr :=
  fun s =>
    match ctx.rowProperty s.shape name path label with
    | .ok property =>
      (some (.attr (s.shape.useAttribute property).1),
        { s with shape := (s.shape.useAttribute property).2 })
    | .error cause => fail cause.message s

mutual
/-- The expression of a term, for a term that may be a part of another one. -/
def visit (ctx : Context) : Term → Translation Expr
  | .constant (some value) _ => return .ofLiteral value none
  | .constant none type => return .null type
  | .parameter name => fail (Obstacle.freeParameter name).message
  | .member target label =>
    match ht : target.resolve with
    | .entity name path => visitField ctx name path label
    | .object members =>
      match hs : Term.memberNamed? label members with
      | some selected =>
        have := Term.sizeOf_selected_lt ht hs
        visit ctx selected
      | none => fail (Obstacle.noMember target label).message
    | _ => fail (Obstacle.memberAccess (.member target label)).message
  | .unary op operand => do
    let e ← visit ctx operand
    step (op.lower operand e)
  | .binary op left right => do
    let l ← visit ctx left
    let r ← visit ctx right
    step (op.lower l r)
  | .call receiver method arguments => do
    let r ← visit ctx receiver
    let args ← visitAll ctx arguments
    step (ctx.lowerCall r method args)
  | .ownerCall method _ => fail (Obstacle.ownerCall method).message
  | .object members => fail (Obstacle.construct (.object members)).message
  | .conditional test whenTrue whenFalse =>
    fail (Obstacle.construct (.conditional test whenTrue whenFalse)).message
  | .lambda p body => fail (Obstacle.construct (.lambda p body)).message
  | .entity name _ => fail (Obstacle.rowAsValue name).message
  | .binding path => fun s => step (s.shape.valueAt path) s
termination_by t => sizeOf t

/-- The expressions of terms in turn, up to the first that has none. -/
def visitAll (ctx : Context) : List Term → Translation (List Expr)
  | [] => return []
  | t :: rest => do
    let e ← visit ctx t
    let es ← visitAll ctx rest
    return e :: es
termination_by ts => sizeOf ts
end

/-- **The translation of a term.** The details of earlier failures are dropped first. -/
def translate (ctx : Context) (t : Term) : Translation Expr := fun s =>
  ctx.visit t { s with details := none }

end Context

/-! ## 2. It finds what lowering finds -/

/-- The result and the session that an outcome over the attributes in use comes to. -/
def Session.noting {α : Type} (shape : Shape) (details : Option String) :
    Except Obstacle α × Memo → Option α × Session
  | (.ok a, memo) => (some a, ⟨{ shape with memo := memo }, details⟩)
  | (.error cause, memo) => (none, ⟨{ shape with memo := memo }, some cause.message⟩)

/-- Whatever is in use and whatever has been noted before, the translation has the outcome of the
    computation. A failure is noted, and a success leaves the note as it is. -/
def Tracks {α : Type} (shape : Shape) (x : Translation α) (y : Using Obstacle α) : Prop :=
  ∀ memo details, x ⟨{ shape with memo := memo }, details⟩ = Session.noting shape details (y memo)

namespace Tracks

variable {α β : Type} {shape : Shape}

theorem pure (a : α) : Tracks shape (Pure.pure a) (Pure.pure a) := fun _ _ => rfl

theorem fail (cause : Obstacle) :
    Tracks shape (Translation.fail cause.message : Translation α) (throw cause) := fun _ _ => rfl

theorem step (e : Except Obstacle α) : Tracks shape (Translation.step e) (liftM e) := by
  intro memo details
  cases e <;> rfl

theorem bind {x : Translation α} {y : Using Obstacle α} {f : α → Translation β}
    {g : α → Using Obstacle β} (hx : Tracks shape x y) (hf : ∀ a, Tracks shape (f a) (g a)) :
    Tracks shape (x >>= f) (y >>= g) := by
  intro memo details
  have h := hx memo details
  rcases hy : y memo with ⟨r, memo'⟩
  rw [hy] at h
  cases r with
  | ok a =>
    rw [Translation.bind_of_some h, Using.bind_of_ok hy]
    exact hf a memo' details
  | error cause =>
    rw [Translation.bind_of_none h, Using.bind_of_error hy]
    rfl

end Tracks

namespace Context

variable {ctx : Context} {shape : Shape}

section Members

variable {target : Term} {label : String}

theorem lower_of_row {name : String} {path : Path} (h : target.resolve = .entity name path) :
    ctx.lower shape (.member target label) = (do
      let property ← ctx.rowProperty shape name path label
      let ref ← useAttribute property shape.source
      return Expr.attr ref) := by
  rw [lower]
  split <;> simp_all

theorem lower_of_selected {members : List (String × Term)} (h : target.resolve = .object members)
    {selected : Term} (hs : Term.memberNamed? label members = some selected) :
    ctx.lower shape (.member target label) = ctx.lower shape selected := by
  rw [lower]
  split
  · simp_all
  · rename_i ms hms
    obtain rfl : members = ms := Term.object.inj (h.symm.trans hms)
    split <;> simp_all
  · simp_all

theorem lower_of_unlabelled {members : List (String × Term)} (h : target.resolve = .object members)
    (hs : Term.memberNamed? label members = none) :
    ctx.lower shape (.member target label) = throw (.noMember target label) := by
  rw [lower]
  split
  · simp_all
  · rename_i ms hms
    obtain rfl : members = ms := Term.object.inj (h.symm.trans hms)
    split <;> simp_all
  · simp_all

theorem lower_of_no_members (hrow : ∀ name path, target.resolve ≠ .entity name path)
    (hobject : ∀ members, target.resolve ≠ .object members) :
    ctx.lower shape (.member target label) = throw (.memberAccess (.member target label)) := by
  rw [lower]
  split <;> simp_all

end Members

theorem visitField_tracks (name : String) (path : Path) (label : String) :
    Tracks shape (ctx.visitField name path label) (do
      let property ← ctx.rowProperty shape name path label
      let ref ← useAttribute property shape.source
      return Expr.attr ref) := by
  intro memo details
  have hshape : ctx.rowProperty { shape with memo := memo } name path label =
      ctx.rowProperty shape name path label := rfl
  simp only [visitField, hshape]
  cases ctx.rowProperty shape name path label <;> rfl

mutual
/-- **A term is translated as it is lowered.** -/
theorem visit_tracks (t : Term) : Tracks shape (ctx.visit t) (ctx.lower shape t) := by
  match t with
  | .constant (some _) _ | .constant none _ =>
    rw [visit, lower]
    exact .pure _
  | .member target label =>
    rw [visit]
    split
    · rename_i name path ht
      rw [lower_of_row ht]
      exact visitField_tracks name path label
    · rename_i members ht
      split
      · rename_i selected hs
        have := Term.sizeOf_selected_lt ht hs
        rw [lower_of_selected ht hs]
        exact visit_tracks selected
      · rename_i hs
        rw [lower_of_unlabelled ht hs]
        exact .fail _
    · rename_i hrow hobject
      rw [lower_of_no_members hrow hobject]
      exact .fail _
  | .unary op operand =>
    rw [visit, lower]
    exact .bind (visit_tracks operand) fun _ => .step _
  | .binary op left right =>
    rw [visit, lower]
    exact .bind (visit_tracks left) fun _ => .bind (visit_tracks right) fun _ => .step _
  | .call receiver method arguments =>
    rw [visit, lower]
    exact .bind (visit_tracks receiver) fun _ => .bind (visitAll_tracks arguments) fun _ => .step _
  | .parameter _ | .ownerCall _ _ | .object _ | .conditional _ _ _ | .lambda _ _ | .entity _ _ =>
    rw [visit, lower]
    exact .fail _
  | .binding path =>
    rw [visit, lower]
    exact fun memo details => Tracks.step (shape.valueAt path) memo details
termination_by sizeOf t

theorem visitAll_tracks (ts : List Term) :
    Tracks shape (ctx.visitAll ts) (ctx.lowerAll shape ts) := by
  match ts with
  | [] =>
    rw [visitAll, lowerAll]
    exact .pure _
  | t :: rest =>
    rw [visitAll, lowerAll]
    exact .bind (visit_tracks t) fun _ => .bind (visitAll_tracks rest) fun _ => .pure _
termination_by sizeOf ts
end

/-- The translation of a term and what is noted of it hang on the term and the shape alone. -/
theorem translate_eq (ctx : Context) (shape : Shape) (t : Term) (memo : Memo)
    (details : Option String) :
    ctx.translate t ⟨{ shape with memo := memo }, details⟩ =
      Session.noting shape none (ctx.lower shape t memo) := visit_tracks t memo none

end Context

end EntityQuery
