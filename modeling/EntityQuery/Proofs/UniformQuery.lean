import EntityQuery.Proofs.UniformExpr

/-!
Queries that differ in their literals only.

A chain is run with all choices of payloads for its literals at once. The queries under way have
one source, one row and one list of paths, and their expressions are uniform families.

* `Projection.Uniform`, `Shape.Uniform`, `Query.Uniform` -- what the payloads do not show in;
* `Model.uniform_reading` -- **terms are read alike over the shapes of such a family**;
* `Content.Uniform.bound` -- so they are projected alike;
* `Stage.withPayloadsIn` -- stages with other literals;
* `Context.uniform_outcome` -- **stages in turn lead from a uniform query to a uniform query and
  uniform conditions**, or fail for all payloads.
-/
namespace EntityQuery

variable {P : Nat → Literal → Prop}

/-! ## 1. Projections -/

namespace Projection

/-- The same paths in the same order for all payloads, with uniform expressions at them. -/
inductive Uniform (P : Nat → Literal → Prop) : (Payloads → Projection) → Prop where
  | nil : Uniform P fun _ => []
  | cons (path : Path) {a : Payloads → Expr} {p : Payloads → Projection} (head : Expr.Uniform P a)
      (tail : Uniform P p) : Uniform P fun g => (path, a g) :: p g

namespace Uniform

variable {p q : Payloads → Projection} {a : Payloads → Expr}

theorem append (hp : Uniform P p) (hq : Uniform P q) : Uniform P fun g => p g ++ q g := by
  induction hp with
  | nil => exact hq
  | cons path head _ ih => exact .cons path head ih

theorem get? (h : Uniform P p) (path : Path) :
    Uniformly (Expr.Uniform P) fun g => (p g).get? path := by
  induction h with
  | nil => exact .none
  | cons path' head _ ih =>
    by_cases hpath : path' = path
    · refine (Uniformly.some head).congr fun g => ?_
      rw [Projection.get?, if_pos hpath]
    · refine ih.congr fun g => ?_
      rw [Projection.get?, if_neg hpath]

theorem insert (h : Uniform P p) (path : Path) (ha : Expr.Uniform P a) :
    Uniform P fun g => (p g).insert path (a g) := by
  induction h with
  | nil => exact .cons path ha .nil
  | @cons path' b p head tail ih =>
    by_cases hpath : path' = path
    · have heq : (fun g => Projection.insert path (a g) ((path', b g) :: p g)) =
          fun g => (path', a g) :: p g := by
        funext g
        rw [Projection.insert, if_pos hpath]
      rw [heq]
      exact .cons path' ha tail
    · have heq : (fun g => Projection.insert path (a g) ((path', b g) :: p g)) =
          fun g => (path', b g) :: Projection.insert path (a g) (p g) := by
        funext g
        rw [Projection.insert, if_neg hpath]
      rw [heq]
      exact .cons path' head ih

theorem ofList (h : Uniform P p) : Uniform P fun g => Projection.ofList (p g) := by
  have hfold : ∀ start : Payloads → Projection, Uniform P start →
      Uniform P fun g =>
        (p g).foldl (fun projection entry => projection.insert entry.1 entry.2) (start g) := by
    induction h with
    | nil => exact fun _ hstart => hstart
    | cons path head _ ih => exact fun start hstart => ih _ (hstart.insert path head)
  exact hfold _ .nil

theorem isEmpty_eq (h : Uniform P p) (g : Payloads) : (p g).isEmpty = (p .same).isEmpty := by
  cases h <;> rfl

theorem any_isRow_eq (h : Uniform P p) (g : Payloads) :
    ((p g).any fun entry => entry.2.isRow) = (p .same).any fun entry => entry.2.isRow := by
  induction h with
  | nil => rfl
  | cons path head _ ih => rw [List.any_cons, List.any_cons, ih, head.isRow_eq g]

theorem attributes_eq (h : Uniform P p) (g : Payloads) :
    ((p g).flatMap fun entry => entry.2.attributes) =
      (p .same).flatMap fun entry => entry.2.attributes := by
  induction h with
  | nil => rfl
  | cons path head _ ih => rw [List.flatMap_cons, List.flatMap_cons, ih, head.attributes_eq g]

end Uniform

end Projection

/-! ## 2. Shapes -/

/-- Shapes with one source and a uniform projection. -/
structure Shape.Uniform (P : Nat → Literal → Prop) (shape : Payloads → Shape) : Prop where
  source : ∀ g, (shape g).source = (shape .same).source
  projection : Projection.Uniform P fun g => (shape g).projection

namespace Shape.Uniform

variable {shape : Payloads → Shape}

theorem get?_cases (h : Shape.Uniform P shape) (path : Path) :
    (∀ g, (shape g).projection.get? path = none) ∨
      ∃ a, Expr.Uniform P a ∧ ∀ g, (shape g).projection.get? path = some (a g) :=
  h.projection.get? path

theorem rowAt?_eq (h : Shape.Uniform P shape) (path : Path) (g : Payloads) :
    (shape g).rowAt? path = (shape .same).rowAt? path := by
  unfold Shape.rowAt?
  obtain hnone | ⟨a, ha, hsome⟩ := h.get?_cases path
  · rw [hnone g, hnone .same, h.projection.isEmpty_eq g, h.source g]
  · rw [hsome g, hsome .same]
    cases ha <;> rfl

theorem valueAt (h : Shape.Uniform P shape) (path : Path) :
    Uniformly (Expr.Uniform P) fun g => ((shape g).valueAt path).toOption := by
  unfold Shape.valueAt
  obtain hnone | ⟨a, ha, hsome⟩ := h.get?_cases path
  · refine Uniformly.none.congr fun g => ?_
    rw [hnone g]
    rfl
  · by_cases hrow : (a .same).isRow = true
    · refine Uniformly.none.congr fun g => ?_
      simp [hsome g, ha.isRow_eq g, hrow, Except.toOption]
    · refine (Uniformly.some ha).congr fun g => ?_
      simp [hsome g, ha.isRow_eq g, hrow, Except.toOption]

theorem selectList_eq (h : Shape.Uniform P shape) (g : Payloads) :
    (shape g).selectList = (shape .same).selectList := by
  unfold Shape.selectList Shape.readAttributes
  rw [h.projection.any_isRow_eq g, h.projection.attributes_eq g]

end Shape.Uniform

/-! ## 3. Terms -/

/-- The built-in rules for calls are the one for texts. -/
theorem Model.toOption_lowerCall (model : Model) (receiver : Expr) (method : Method)
    (arguments : List Expr) :
    (model.context.lowerCall receiver method arguments).toOption =
      CallRule.strings model receiver method arguments := by
  have hfirst : CallRule.first model.context.rules model.context.model receiver method arguments =
      CallRule.strings model receiver method arguments := by
    simp [CallRule.first, context, CallRule.extended]
  unfold Context.lowerCall
  rw [hfirst]
  cases CallRule.strings model receiver method arguments <;> rfl

/-- Whether a call has a function hangs on the types of its operands only. -/
theorem CallRule.uniform_strings (model : Model) {a : Payloads → Expr} {as : Payloads → List Expr}
    (method : Method) (ha : Expr.Uniform P a) (has : EachUniform (Expr.Uniform P) as) :
    Uniformly (Expr.Uniform P) fun g => CallRule.strings model (a g) method (as g) := by
  match as, has with
  | _, .nil => exact Uniformly.none.congr fun g => by simp [strings]
  | _, .cons _ (.cons _ _) => exact Uniformly.none.congr fun g => by simp [strings]
  | _, .cons (a := b) hb .nil =>
    by_cases hknown : method.owner = none ∧ (a .same).type = .string ∧
        isTextual (b .same).type = true
    · obtain ⟨howner, hstring, htextual⟩ := hknown
      have hstrings : ∀ g, strings model (a g) method [b g] =
          if method.name = "StartsWith" then some ((a g).beginsWith (b g))
          else if method.name = "Contains" then some ((a g).contains (b g))
          else none := by
        intro g
        simp [strings, howner, ha.type_eq g, hstring, hb.type_eq g, htextual]
      by_cases hstarts : method.name = "StartsWith"
      · refine (Uniformly.some (ha.ofCall "BEGINS_WITH" hb .bool)).congr fun g => ?_
        rw [hstrings, if_pos hstarts]
        rfl
      · by_cases hcontains : method.name = "Contains"
        · refine (Uniformly.some (ha.ofCall "CONTAINS" hb .bool)).congr fun g => ?_
          rw [hstrings, if_neg hstarts, if_pos hcontains]
          rfl
        · refine Uniformly.none.congr fun g => ?_
          rw [hstrings, if_neg hstarts, if_neg hcontains]
    · refine Uniformly.none.congr fun g => ?_
      unfold strings
      split
      · rename_i howner hstring hargument
        cases hargument
        rw [ha.type_eq g] at hstring
        rw [hb.type_eq g, if_neg fun htextual => hknown ⟨howner, hstring, htextual⟩]
      · rfl

/-- **Terms are read alike over the shapes of a uniform family.** -/
theorem Model.uniform_reading (model : Model) {shape : Payloads → Shape}
    (h : Shape.Uniform P shape) :
    Reading.Uniform P (Expr.Uniform P) fun g => model.context.reading (shape g) where
  literal i v hv := .ofLiteral hv none
  null type := .null type none
  field r label := by
    show Uniformly _ fun g =>
      (r.property? model label).map fun p => Expr.attr (.of p (shape g).source)
    cases r.property? model label with
    | none => exact .none
    | some p =>
      refine (Uniformly.some (.attr (.of p (shape .same).source))).congr fun g => ?_
      rw [Option.map_some, h.source g]
  unary op a ha := by
    show Uniformly _ fun g => (op.lower default (a g)).toOption
    cases op with
    | not => exact .some (ha.ofUnary .not)
    | negate => exact .some (ha.ofUnary .negate)
    | negateChecked => exact .some (ha.ofUnary .negate)
    | plus => exact .some ha
    | convert target =>
      by_cases halike : (a .same).type.storedAlike target = true
      · refine (Uniformly.some ha).congr fun g => ?_
        simp [UnaryOp.lower, ha.type_eq g, halike, Except.toOption]
      · refine Uniformly.none.congr fun g => ?_
        simp [UnaryOp.lower, ha.type_eq g, halike, Except.toOption]
    | complement => exact .none
    | arrayLength => exact .none
  binary op a b ha hb := by
    show Uniformly _ fun g => (op.lower (a g) (b g)).toOption
    unfold BinaryOp.lower
    cases op.lowered? with
    | some op' => exact .some (ha.ofBinary op' hb)
    | none => exact .none
  call a method as ha has :=
    (CallRule.uniform_strings model method ha has).congr fun g =>
      model.toOption_lowerCall (a g) method (as g)
  row name path := by
    refine ⟨{ entity := name, ref := (shape .same).rowAt? path }, fun g => ?_⟩
    rw [← h.rowAt?_eq path g]
    rfl
  bound path := h.valueAt path

/-! ## 4. Projecting -/

/-- One row without literals for all payloads, and uniform entries. -/
def Bound.Uniform {α : Type} (literals : α → List Literal) (P : Nat → Literal → Prop)
    (b : Payloads → Bound α) : Prop :=
  ∃ row entries, literals row = [] ∧ Projection.Uniform P entries ∧
    ∀ g, b g = { row := row, entries := entries g }

namespace Content

theorem uniform_boundMembers (path : Path) :
    ∀ {members : List (String × (Payloads → Content Expr NamedRow))},
      (∀ m ∈ members, ∀ path,
        Uniformly (Bound.Uniform Term.literals P) fun g => (m.2 g).bound path) →
      Uniformly (Bound.Uniform Term.memberLiterals P) fun g =>
        boundMembers path (members.map fun m => (m.1, m.2 g))
  | [], _ => .some ⟨[], fun _ => [], rfl, .nil, fun _ => rfl⟩
  | (label, c) :: members, h => by
    have hhead := h (label, c) List.mem_cons_self (path.append label)
    have htail := uniform_boundMembers path fun m hm => h m (List.mem_cons_of_mem _ hm)
    simp only [List.map_cons, boundMembers]
    refine hhead.bind fun b hb => ?_
    refine htail.bind fun bs hbs => .some ?_
    obtain ⟨row, entries, hrow, hentries, hb⟩ := hb
    obtain ⟨rows, rest, hrows, hrest, hbs⟩ := hbs
    refine ⟨(label, row) :: rows, _, ?_, hentries.append hrest, fun g => ?_⟩
    · rw [Term.memberLiterals, hrow, hrows]
      rfl
    · simp only [hb, hbs]

/-- **Uniform contents are projected alike.** -/
theorem Uniform.bound {c : Payloads → Content Expr NamedRow}
    (h : Content.Uniform (Expr.Uniform P) c) (path : Path) :
    Uniformly (Bound.Uniform Term.literals P) fun g => (c g).bound path := by
  induction h generalizing path with
  | nothing => exact .none
  | value ha =>
    exact .some ⟨.binding path, _, rfl, .cons path ha .nil, fun _ => rfl⟩
  | row r =>
    obtain ⟨name, ref⟩ := r
    cases ref with
    | none => exact .none
    | some ref => exact .some ⟨.entity name path, _, rfl, .cons path (.row ref) .nil, fun _ => rfl⟩
  | object _ ih =>
    refine (uniform_boundMembers path ih).map fun b hb => ?_
    obtain ⟨row, entries, hrow, hentries, hb⟩ := hb
    refine ⟨.object row, entries, hrow, hentries, fun g => ?_⟩
    simp only [hb]

end Content

/-! ## 5. Queries and stages -/

/-- Queries with one row without literals, over uniform shapes. -/
structure Query.Uniform (P : Nat → Literal → Prop) (q : Payloads → Query) : Prop where
  shape : Shape.Uniform P fun g => (q g).shape
  row : ∀ g, (q g).row = (q .same).row
  literals : (q .same).row.literals = []

theorem Query.Uniform.content {q : Payloads → Query} (h : Query.Uniform P q) (model : Model) :
    Content.Uniform (Expr.Uniform P) fun g => (q g).content model.context := by
  have hplaced : Placed P 0 (q .same).row.literals := by
    intro i v hi
    rw [h.literals] at hi
    cases hi
  have hrow : Content.Uniform (Expr.Uniform P) fun g =>
      ((q .same).row.withPayloads g 0).content (model.context.reading (q g).shape) Scope.empty :=
    Term.uniform_content (model.uniform_reading h.shape) (fun _ => .nothing) _ hplaced
  refine hrow.congr fun g => ?_
  have hstays : (q .same).row.withPayloads g 0 = (q .same).row :=
    Term.withPayloads_eq_self (by rw [h.literals]; rfl)
  rw [hstays, ← h.row g]
  rfl

theorem Query.Uniform.lambda {q : Payloads → Query} (h : Query.Uniform P q) (model : Model)
    (l : Lambda) {n : Nat} (hplaced : Placed P n l.literals) :
    Content.Uniform (Expr.Uniform P) fun g =>
      (l.withPayloads g n).content (model.context.reading (q g).shape)
        ((q g).content model.context) := by
  refine Term.uniform_content (model.uniform_reading h.shape) (fun name => ?_) l.body hplaced
  show Content.Uniform _ fun g =>
    if name = l.parameter then (q g).content model.context else Content.nothing
  by_cases hname : name = l.parameter
  · simpa only [if_pos hname] using h.content model
  · simpa only [if_neg hname] using .nothing

namespace Query.Uniform

variable {q : Payloads → Query}

theorem start (root : Entity) : Query.Uniform P fun _ => .of root where
  shape := { source := fun _ => rfl, projection := .nil }
  row _ := rfl
  literals := rfl

theorem projected (h : Query.Uniform P q) {b : Payloads → Bound Term}
    (hb : Bound.Uniform Term.literals P b) :
    Query.Uniform P fun g => (q g).projected (b g) (q g).shape.memo := by
  obtain ⟨row, entries, hrow, hentries, hb⟩ := hb
  refine ⟨⟨h.shape.source, ?_⟩, fun g => ?_, ?_⟩
  · show Projection.Uniform P fun g => Projection.ofList (b g).entries
    simp only [hb]
    exact hentries.ofList
  · show (b g).row = (b .same).row
    rw [hb g, hb .same]
  · show (b .same).row.literals = []
    rw [hb .same]
    exact hrow

end Query.Uniform

namespace Stage

/-- The literals of stages in turn. -/
def literalsIn (stages : List Stage) : List Literal := stages.flatMap fun s => s.lambda.literals

/-- The stage with other literals. -/
def withPayloads (g : Payloads) (n : Nat) : Stage → Stage
  | .filter l => .filter (l.withPayloads g n)
  | .project l => .project (l.withPayloads g n)

/-- Stages in turn with other literals. -/
def withPayloadsIn (g : Payloads) (n : Nat) : List Stage → List Stage
  | [] => []
  | s :: rest => s.withPayloads g n :: withPayloadsIn g (n + s.lambda.literals.length) rest

theorem literalsIn_map_operator (stages : List Stage) :
    Operator.literalsIn (stages.map operator) = literalsIn stages := by
  induction stages with
  | nil => rfl
  | cons s stages ih =>
    rw [List.map_cons, Operator.literalsIn, ih, literalsIn, literalsIn, List.flatMap_cons]
    cases s <;> rfl

theorem withPayloadsIn_map_operator (g : Payloads) (n : Nat) (stages : List Stage) :
    Operator.withPayloadsIn g n (stages.map operator) =
      (withPayloadsIn g n stages).map operator := by
  induction stages generalizing n with
  | nil => rfl
  | cons s stages ih =>
    rw [List.map_cons, Operator.withPayloadsIn, ih, withPayloadsIn, List.map_cons]
    cases s <;> rfl

end Stage

/-- A query and conditions that are uniform. -/
def Context.UniformOutcome (P : Nat → Literal → Prop) (r : Payloads → Query × List Expr) : Prop :=
  Query.Uniform P (fun g => (r g).1) ∧ EachUniform (Expr.Uniform P) fun g => (r g).2

/-- **Stages in turn lead from a uniform query to a uniform query and uniform conditions**, or fail
    for all payloads. -/
theorem Context.uniform_outcome (model : Model) {stages : List Stage} {n : Nat}
    {q : Payloads → Query} (hq : Query.Uniform P q) (hplaced : Placed P n (Stage.literalsIn stages)) :
    Uniformly (UniformOutcome P) fun g =>
      model.context.outcome (Stage.withPayloadsIn g n stages) (q g) := by
  induction stages generalizing n q with
  | nil => exact .some ⟨hq, .nil⟩
  | cons s stages ih =>
    obtain ⟨hhead, htail⟩ := Placed.append hplaced
    cases s with
    | filter l =>
      -- a filter leaves the query as it is and adds one condition
      refine (hq.lambda model l hhead).value?.bind fun e he => ?_
      exact (ih hq htail).map fun r hr => ⟨hr.1, .cons he hr.2⟩
    | project l =>
      exact ((hq.lambda model l hhead).bound .root).bind fun b hb => ih (hq.projected hb) htail

end EntityQuery
