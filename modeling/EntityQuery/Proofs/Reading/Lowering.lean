import EntityQuery.Proofs.Reading.Basic
import EntityQuery.Query

/-!
Lowering and projecting as readings over expressions.

The attributes in use decide nothing: whatever is in use, as long as it is right, a term has the
expression that it stands for, and is bound as what it stands for.

* `Context.reading` -- the reading of terms over the expressions of the store;
* `Shape.Rooted` -- every row bound in a shape is the row of its source, an entity of the model;
* `Memo.Faithful` -- every attribute in use is the one of the property with its name;
* `Gives` -- a computation has a result that does not hang on the attributes in use;
* `Context.gives_lower` -- **a term is lowered to the value it stands for**;
* `Content.bound`, `Context.gives_bind` -- **a term is projected as what it stands for**.
-/
namespace EntityQuery

/-! ## 1. The reading over expressions -/

/-- A row as a term names it: the entity it is said to be of, and what is bound at its path. -/
structure NamedRow where
  entity : String
  ref : Option RowRef

/-- The row of an entity itself. -/
def RowRef.of (e : Entity) : RowRef := { entity := e.name, source := .of e }

/-- The property that a label means on a row, if the row is of the entity it is said to be of. -/
def NamedRow.property? (model : Model) (r : NamedRow) (label : String) : Option Property :=
  if r.ref.any fun ref => ref.entity = r.entity then
    (model.find? r.entity).bind fun e => e.find? label
  else none

/-- Terms read as expressions over the rows of a shape. -/
def Context.reading (ctx : Context) (shape : Shape) : Reading Expr NamedRow where
  literal value := .ofLiteral value none
  null type := .null type
  field r label := (r.property? ctx.model label).map fun p => .attr (.of p shape.source)
  unary op e := (op.lower default e).toOption
  binary op left right := (op.lower left right).toOption
  call receiver method arguments := (ctx.lowerCall receiver method arguments).toOption
  row name path := { entity := name, ref := shape.rowAt? path }
  bound path := (shape.valueAt path).toOption

/-- The operand is named in obstacles only. -/
theorem UnaryOp.toOption_lower (op : UnaryOp) (t : Term) (e : Expr) :
    (op.lower t e).toOption = (op.lower default e).toOption := by
  cases op <;> rfl

theorem Context.toOption_rowProperty (ctx : Context) (shape : Shape) (name : String) (path : Path)
    (label : String) :
    (ctx.rowProperty shape name path label).toOption =
      NamedRow.property? ctx.model { entity := name, ref := shape.rowAt? path } label := by
  unfold rowProperty NamedRow.property?
  cases ctx.model.find? name with
  | none => simp [Except.toOption]
  | some e =>
    cases hl : e.find? label with
    | none => simp [Except.toOption, hl]
    | some p =>
      by_cases h : (shape.rowAt? path).any fun row => row.entity = name
      · simp [Except.toOption, hl, h]
      · simp [Except.toOption, hl, h]

/-! ## 2. Right rows and attributes -/

/-- A property is found under its own name. -/
theorem Entity.name_of_find? {e : Entity} {label : String} {p : Property}
    (h : e.find? label = some p) : p.name = label := by
  have := List.find?_some h
  simpa using this

/-- An entity is found under its own name. -/
theorem Model.name_of_find? {m : Model} {name : String} {e : Entity}
    (h : m.find? name = some e) : e.name = name := by
  have := List.find?_some h
  simpa using this

/-- The source of a shape is an entity of the model, and every row bound in it is the row of that
    entity. -/
structure Shape.Rooted (model : Model) (root : Entity) (shape : Shape) : Prop where
  found : model.find? root.name = some root
  source_eq : shape.source = .of root
  rows : ∀ path ref, shape.projection.get? path = some (.row ref) → ref = .of root

theorem Shape.Rooted.rowAt?_eq {model : Model} {root : Entity} {shape : Shape}
    (h : shape.Rooted model root) {path : Path} {ref : RowRef}
    (hp : shape.rowAt? path = some ref) : ref = .of root := by
  unfold Shape.rowAt? at hp
  split at hp
  · rename_i hget
    cases hp
    exact h.rows path ref hget
  · cases hp
  · split at hp
    · cases hp
      rw [h.source_eq]
      rfl
    · cases hp

/-- A label on a row of a rooted shape means the property of the root with that name. -/
theorem Shape.Rooted.property?_eq {model : Model} {root : Entity} {shape : Shape}
    (h : shape.Rooted model root) {name label : String} {path : Path} {p : Property}
    (hp : NamedRow.property? model { entity := name, ref := shape.rowAt? path } label = some p) :
    name = root.name ∧ root.find? label = some p := by
  unfold NamedRow.property? at hp
  split at hp
  · rename_i hany
    obtain ⟨ref, href, hname⟩ := (Option.any_eq_true _ _).mp hany
    have hroot : root.name = name := by
      rw [h.rowAt?_eq href] at hname
      exact of_decide_eq_true hname
    subst hroot
    rw [h.found] at hp
    exact ⟨rfl, hp⟩
  · cases hp

/-- Every attribute in use is the one of the root's property with that name. -/
def Memo.Faithful (root : Entity) (memo : Memo) : Prop :=
  ∀ name ref, memo.get? name = some ref →
    ∃ p, root.find? name = some p ∧ ref = .of p (.of root)

theorem Memo.faithful_nil (root : Entity) : Memo.Faithful root [] := by
  intro name ref h
  cases h

theorem Memo.get?_append_of_none {memo : Memo} {name : String} (h : memo.get? name = none)
    (more : Memo) : Memo.get? name (memo ++ more) = Memo.get? name more := by
  induction memo with
  | nil => rfl
  | cons entry rest ih =>
    obtain ⟨n, ref⟩ := entry
    by_cases hn : n = name
    · simp [Memo.get?, hn] at h
    · simp only [Memo.get?, hn, if_false] at h
      simpa [Memo.get?, hn] using ih h

/-- Using a property of the root gives its attribute, and what is in use stays faithful. -/
theorem Memo.Faithful.use {root : Entity} {memo : Memo} (hm : memo.Faithful root) {p : Property}
    (hp : root.find? p.name = some p) :
    (memo.use p (.of root)).1 = .of p (.of root) ∧ (memo.use p (.of root)).2.Faithful root := by
  unfold Memo.use
  split
  · rename_i ref hget
    obtain ⟨p', hp', href⟩ := hm p.name ref hget
    rw [hp] at hp'
    cases hp'
    exact ⟨href, hm⟩
  · rename_i hget
    refine ⟨rfl, fun name ref h => ?_⟩
    cases hold : memo.get? name with
    | some ref' =>
      rw [Memo.get?_append_of_isSome hold] at h
      cases h
      exact hm name ref hold
    | none =>
      rw [Memo.get?_append_of_none hold] at h
      unfold Memo.get? at h
      split at h
      · rename_i hname
        cases h
        exact ⟨p, hname ▸ hp, rfl⟩
      · cases h

/-! ## 3. Computations that do not hang on the attributes in use -/

/-- Whatever faithful attributes are in use, the computation has that result or, if there is none,
    fails; and the attributes in use stay faithful. -/
def Gives {ε α : Type} (root : Entity) (x : Using ε α) (result : Option α) : Prop :=
  ∀ memo : Memo, memo.Faithful root → (x memo).1.toOption = result ∧ (x memo).2.Faithful root

namespace Gives

variable {ε α β : Type} {root : Entity}

theorem pure (a : α) : Gives root (Pure.pure a : Using ε α) (some a) :=
  fun _ hm => ⟨rfl, hm⟩

theorem throw (e : ε) : Gives root (MonadExcept.throw e : Using ε α) none :=
  fun _ hm => ⟨rfl, hm⟩

theorem lift (e : Except ε α) : Gives root (liftM e : Using ε α) e.toOption :=
  fun _ hm => ⟨rfl, hm⟩

theorem use {p : Property} (hp : root.find? p.name = some p) :
    Gives root (useAttribute p (.of root) : Using ε AttributeRef) (some (.of p (.of root))) := by
  intro memo hm
  obtain ⟨href, hmemo⟩ := hm.use hp
  exact ⟨congrArg some href, hmemo⟩

theorem bind {x : Using ε α} {f : α → Using ε β} {result : Option α} {g : α → Option β}
    (hx : Gives root x result) (hf : ∀ a, result = some a → Gives root (f a) (g a)) :
    Gives root (x >>= f) (result.bind g) := by
  intro memo hm
  obtain ⟨hres, hmemo⟩ := hx memo hm
  show (ExceptT.bindCont f (x memo).1 (x memo).2).1.toOption = _ ∧
    Memo.Faithful root (ExceptT.bindCont f (x memo).1 (x memo).2).2
  generalize x memo = after at hres hmemo
  obtain ⟨r, memo'⟩ := after
  subst hres
  cases r with
  | error e => exact ⟨rfl, hmemo⟩
  | ok a => exact hf a rfl memo' hmemo

end Gives

namespace Context

variable {ctx : Context} {root : Entity} {shape : Shape}

/-! ## 4. Lowering -/

/-- The member of a row. -/
theorem gives_field (h : shape.Rooted ctx.model root) (name : String) (path : Path)
    (label : String) :
    Gives root
      (do
        let property ← ctx.rowProperty shape name path label
        let ref ← useAttribute property shape.source
        return Expr.attr ref : Using Obstacle Expr)
      ((ctx.reading shape).field { entity := name, ref := shape.rowAt? path } label) := by
  have hfield : (ctx.reading shape).field { entity := name, ref := shape.rowAt? path } label =
      (ctx.rowProperty shape name path label).toOption.bind
        fun p => some (.attr (.of p shape.source)) := by
    rw [ctx.toOption_rowProperty]
    exact Option.map_eq_bind
  rw [hfield]
  refine .bind (.lift _) fun p hp => ?_
  rw [ctx.toOption_rowProperty] at hp
  have hfind := (h.property?_eq hp).2
  rw [← Entity.name_of_find? hfind] at hfind
  rw [h.source_eq]
  show Gives root _ ((some (AttributeRef.of p (.of root))).bind fun ref => some (Expr.attr ref))
  exact .bind (.use hfind) fun ref _ => .pure (Expr.attr ref)

mutual
/-- **A term is lowered to the value it stands for**, and has an obstacle if it stands for none. -/
theorem gives_lower (h : shape.Rooted ctx.model root) (t : Term) :
    Gives root (ctx.lower shape t) (t.content (ctx.reading shape) Scope.empty).value? := by
  match t with
  | .constant (some _) _ | .constant none _ =>
    rw [lower, Term.content]
    exact .pure _
  | .member target label =>
    have htarget := Term.content_resolve (ctx.reading shape) Scope.empty target
    rw [lower, Term.content]
    split
    · rename_i name path ht
      rw [ht, Term.content] at htarget
      rw [← htarget, Content.select, Content.value?_ofOption]
      exact gives_field h name path label
    · rename_i members ht
      rw [ht, Term.content] at htarget
      rw [← htarget, Content.select, Term.named?_memberContents]
      split
      · rename_i selected hs
        have := Term.sizeOf_selected_lt ht hs
        show Gives root (ctx.lower shape selected) _
        rw [hs]
        exact gives_lower h selected
      · rename_i hs
        rw [hs]
        exact .throw _
    · -- neither a row nor an object: the target has no members
      rename_i hentity hobject
      rw [Term.content_eq_ofOption (ctx.reading shape) target hobject hentity]
      cases (target.content (ctx.reading shape) Scope.empty).value? <;> exact .throw _
  | .unary op operand =>
    rw [lower, Term.content, Content.value?_ofOption]
    refine .bind (gives_lower h operand) fun e _ => ?_
    show Gives root _ (op.lower default e).toOption
    rw [← op.toOption_lower operand e]
    exact .lift _
  | .binary op left right =>
    rw [lower, Term.content, Content.value?_ofOption]
    exact .bind (gives_lower h left) fun _ _ => .bind (gives_lower h right) fun _ _ => .lift _
  | .call receiver method arguments =>
    rw [lower, Term.content, Content.value?_ofOption]
    exact .bind (gives_lower h receiver) fun _ _ =>
      .bind (gives_lowerAll h arguments) fun _ _ => .lift _
  | .parameter _ | .ownerCall _ _ | .object _ | .conditional _ _ _ | .lambda _ _ | .entity _ _ =>
    rw [lower, Term.content]
    exact .throw _
  | .binding _ =>
    rw [lower, Term.content, Content.value?_ofOption]
    exact .lift _
termination_by sizeOf t

theorem gives_lowerAll (h : shape.Rooted ctx.model root) (ts : List Term) :
    Gives root (ctx.lowerAll shape ts) (Term.valuesOf (ctx.reading shape) Scope.empty ts) := by
  match ts with
  | [] =>
    rw [lowerAll, Term.valuesOf]
    exact .pure _
  | t :: rest =>
    rw [lowerAll, Term.valuesOf]
    refine .bind (gives_lower h t) fun e _ => ?_
    rw [Option.map_eq_bind]
    exact .bind (gives_lowerAll h rest) fun _ _ => .pure _
termination_by sizeOf ts
end

end Context

/-! ## 5. Projecting -/

namespace Content

mutual
/-- A content bound at a path: its values and rows at the paths of the labels that lead to them,
    and the term that refers to them there. -/
def bound (path : Path) : Content Expr NamedRow → Option (Bound Term)
  | .nothing => none
  | .value e => some { row := .binding path, entries := [(path, e)] }
  | .row r => r.ref.map fun ref => { row := .entity r.entity path, entries := [(path, .row ref)] }
  | .object members =>
    (boundMembers path members).map fun b => { row := .object b.row, entries := b.entries }

/-- The members of an object bound in turn. -/
def boundMembers (path : Path) :
    List (String × Content Expr NamedRow) → Option (Bound (List (String × Term)))
  | [] => some { row := [], entries := [] }
  | (label, c) :: rest =>
    (bound (path.append label) c).bind fun b =>
      (boundMembers path rest).bind fun bs =>
        some { row := (label, b.row) :: bs.row, entries := b.entries ++ bs.entries }
end

end Content

namespace Context

variable {ctx : Context} {root : Entity} {shape : Shape}

theorem gives_bindRow (shape : Shape) (path : Path) (name : String) (bound : Path) :
    (bindRow shape path name bound).toOption =
      Content.bound path (.row ((ctx.reading shape).row name bound)) := by
  unfold bindRow
  rw [Content.bound]
  show _ = (shape.rowAt? bound).map _
  cases shape.rowAt? bound <;> rfl

theorem gives_bindValue (h : shape.Rooted ctx.model root) (path : Path) (t : Term) :
    Gives root (ctx.bindValue shape path t)
      (Content.bound path (.ofOption (t.content (ctx.reading shape) Scope.empty).value?)) := by
  intro memo hm
  obtain ⟨hres, hmemo⟩ := gives_lower h t memo hm
  unfold bindValue
  rw [← hres]
  generalize ctx.lower shape t memo = after at hmemo
  obtain ⟨r, memo'⟩ := after
  cases r with
  | error cause => exact ⟨rfl, hmemo⟩
  | ok e => exact ⟨rfl, hmemo⟩

mutual
/-- **A term is projected as what it stands for**, and fails if some part stands for nothing. -/
theorem gives_bind (h : shape.Rooted ctx.model root) (path : Path) (t : Term) :
    Gives root (ctx.bind shape path t)
      ((t.content (ctx.reading shape) Scope.empty).bound path) := by
  have hcontent := Term.content_resolve (ctx.reading shape) Scope.empty t
  rw [bind]
  split
  · rename_i members ht
    have := Term.sizeOf_members_lt ht
    rw [ht, Term.content] at hcontent
    rw [← hcontent, Content.bound, Option.map_eq_bind]
    exact .bind (gives_bindMembers h path members) fun _ _ => .pure _
  · rename_i name bound ht
    rw [ht, Term.content] at hcontent
    rw [← hcontent, ← gives_bindRow]
    exact .lift _
  · rename_i hobject hentity
    have hvalue := gives_bindValue h path t.resolve
    rw [hcontent, ← Term.content_eq_ofOption (ctx.reading shape) t hobject hentity] at hvalue
    exact hvalue
termination_by sizeOf t

theorem gives_bindMembers (h : shape.Rooted ctx.model root) (path : Path)
    (members : List (String × Term)) :
    Gives root (ctx.bindMembers shape path members)
      (Content.boundMembers path
        (Term.memberContents (ctx.reading shape) Scope.empty members)) := by
  match members with
  | [] =>
    rw [bindMembers, Term.memberContents, Content.boundMembers]
    exact .pure _
  | (label, t) :: rest =>
    rw [bindMembers, Term.memberContents, Content.boundMembers]
    exact .bind (gives_bind h (path.append label) t) fun _ _ =>
      .bind (gives_bindMembers h path rest) fun _ _ => .pure _
termination_by sizeOf members
end

end Context

end EntityQuery
