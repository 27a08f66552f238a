import EntityQuery.Proofs.Interpretation
import EntityQuery.Proofs.Reachable

/-!
The query of a chain means what the chain means.

Over any domain of values and any row of attributes, the stages of a chain have a meaning of their
own: each filter says something of the rows as they are there, and the projections make a result of
the row. The query of the chain says the same by its condition, its recorded expressions and its
row.

* `Stage.conditions`, `Stage.result` -- the meaning of stages;
* `Interpretation.recorded` -- terms with what a shape records at the paths;
* `Query.Means` -- a query means a result: its row reads as the result, and every recorded
  expression is a leaf of it;
* `Query.Means.projected`, `Query.Means.outcome` -- one projection, and stages in turn;
* `Model.translation_preserves_meaning` -- the same for the query of a whole chain.
-/
namespace EntityQuery

universe u

variable {α : Type u}

/-! ## 1. The meaning of stages -/

namespace Stage

variable {ρ : Type} (R : Reading α ρ)

/-- What the filters of stages say of the rows, in turn. -/
def conditions : List Stage → Content α ρ → List (Content α ρ)
  | [], _ => []
  | .filter predicate :: rest, c => predicate.content R c :: conditions rest c
  | .project selector :: rest, c => conditions rest (selector.content R c)

/-- What the projections of stages make of the rows. -/
def result : List Stage → Content α ρ → Content α ρ
  | [], c => c
  | .filter _ :: rest, c => result rest c
  | .project selector :: rest, c => result rest (selector.content R c)

end Stage

/-! ## 2. The meaning of a query -/

namespace Interpretation

variable (I : Interpretation α) (row : String → α)

/-- Terms with what a shape records at the paths: its rows, and the values of its expressions. -/
def recorded (model : Model) (shape : Shape) : Reading α (Option Entity) :=
  I.reading row (fun path => (shape.rowAt? path).bind fun ref => model.find? ref.entity)
    fun path => (shape.projection.get? path).bind (Expr.eval I row)

end Interpretation

/-- An expression is the leaf of a result at a path: a value, or the row itself. -/
def Expr.IsLeaf (I : Interpretation α) (row : String → α) (root : Entity)
    (result : Content α (Option Entity)) (path : Path) (e : Expr) : Prop :=
  (∃ a, e.eval I row = some a ∧ result.follow path.labels = .value a) ∨
    e = .row (.of root) ∧ result.follow path.labels = .row (some root)

/-- A query means a result. -/
structure Query.Means (I : Interpretation α) (row : String → α) (model : Model) (root : Entity)
    (q : Query) (result : Content α (Option Entity)) : Prop where
  follows : Content.Follows (Expr.HasValue I row) (NamedRow.Is root) (q.content model.context) result
  row_eq : q.row.content (I.recorded row model q.shape) Scope.empty = result
  full : result.Full
  leaves : ∀ path e, q.shape.projection.get? path = some e → e.IsLeaf I row root result path

variable {I : Interpretation α} {row : String → α} {model : Model} {root : Entity}

/-- A bound row reads as what follows the content it is bound for, where its entries are
    recorded. -/
theorem Binds.recorded {path : Path} {c : Content Expr NamedRow} {t : Term}
    {entries : List (Path × Expr)} (h : Binds path c t entries) {shape : Shape}
    (hshape : ∀ entry ∈ entries, shape.projection.get? entry.1 = some entry.2)
    (hfound : model.find? root.name = some root) {v : Content α (Option Entity)}
    (hv : Content.Follows (Expr.HasValue I row) (NamedRow.Is root) c v) :
    t.content (I.recorded row model shape) Scope.empty = v ∧ v.Full := by
  -- each leaf of the content has its entry, so what follows it can be read off the shape
  induction h generalizing v with
  | value path e =>
    cases hv with
    | @value _ a ha =>
      have hget := hshape _ List.mem_cons_self
      have hbound : (I.recorded row model shape).bound path = some a := by
        show (shape.projection.get? path).bind _ = _
        rw [hget]
        exact ha
      refine ⟨?_, .value a⟩
      rw [Term.content, hbound]
      rfl
  | row path name ref =>
    cases hv with
    | row hrow =>
      obtain ⟨hrow, rfl⟩ := hrow
      cases hrow
      have hget := hshape _ List.mem_cons_self
      have hrows : (I.recorded row model shape).row root.name path = some root := by
        show (shape.rowAt? path).bind _ = _
        rw [Shape.rowAt?, hget]
        exact hfound
      refine ⟨?_, .row _⟩
      rw [Term.content, hrows]
  | nil path =>
    cases hv with
    | @object _ ns hlabels _ =>
      cases ns with
      | nil => exact ⟨rfl, .object fun m hm => absurd hm List.not_mem_nil⟩
      | cons _ _ => cases hlabels
  | cons _ _ ihc ihms =>
    obtain ⟨d, ns, rfl, hc, hms⟩ := hv.cons_inv
    obtain ⟨hhead, hfull⟩ := ihc (fun entry he => hshape entry (List.mem_append_left _ he)) hc
    obtain ⟨htail, hrest⟩ := ihms (fun entry he => hshape entry (List.mem_append_right _ he)) hms
    rw [Term.content] at htail
    cases htail
    refine ⟨?_, hfull.cons hrest⟩
    rw [Term.content, Term.memberContents, hhead]

/-- An entry is a leaf of what follows the content it is bound for. -/
theorem Binds.isLeaf {c : Content Expr NamedRow} {t : Term} {entries : List (Path × Expr)}
    (h : Binds .root c t entries) (hd : c.Distinct) {v : Content α (Option Entity)}
    (hv : Content.Follows (Expr.HasValue I row) (NamedRow.Is root) c v) {path : Path} {e : Expr}
    (hentry : (path, e) ∈ entries) : e.IsLeaf I row root v path := by
  obtain ⟨labels, hlabels, hleaf⟩ := h.follow_of_mem hd _ hentry
  have hpath : path.labels = labels := hlabels
  unfold Expr.IsLeaf
  rw [hpath]
  have hfollow := hv.follow labels
  generalize v.follow labels = d at hfollow
  rcases hleaf with hleaf | ⟨name, ref, he, hleaf⟩
  · rw [hleaf] at hfollow
    cases hfollow with
    | value ha => exact Or.inl ⟨_, ha, rfl⟩
  · rw [hleaf] at hfollow
    cases hfollow with
    | row hrow =>
      obtain ⟨hrow, rfl⟩ := hrow
      cases hrow
      exact Or.inr ⟨he, rfl⟩

namespace Query.Means

variable {q r : Query} {v : Content α (Option Entity)}

theorem start (hfound : model.find? root.name = some root) :
    (Query.of root).Means I row model root (.row (some root)) where
  follows := .row ⟨rfl, rfl⟩
  row_eq := by
    show Content.row (model.find? root.name) = _
    rw [hfound]
  full := .row _
  leaves := fun _ _ hget => by cases hget

/-- **After a projection a query means what the selector means of the result before.** -/
theorem projected (hm : q.Means I row model root v) (h : q.Orderly model root) {l : Lambda}
    (hl : l.WellFormed) {b : Bound Term} (hb : model.context.projected? l q = some b)
    (memo : Memo) : (q.projected b memo).Means I row model root (l.content (I.plain row) v) := by
  have hfollows := I.follows_lambda row h.grounded.rooted hl.plain hm.follows
  have hd := Lambda.distinct_content (model.context.reading q.shape) hl.distinct h.distinct
  have hbinds := Content.binds_of_bound _ hb
  have hentries : ∀ entry ∈ b.entries,
      (q.projected b memo).shape.projection.get? entry.1 = some entry.2 :=
    fun _ hentry => hbinds.get?_of_mem hd hentry
  have hrecorded := hbinds.recorded hentries h.grounded.rooted.found hfollows
  refine ⟨?_, hrecorded.1, hrecorded.2, fun path e hget => ?_⟩
  · rw [h.grounded.content_projected hb hd]
    exact hfollows
  · exact hbinds.isLeaf hd hfollows (Projection.mem_of_get?_ofList hget)

/-- **Stages in turn**: the conditions of an outcome have the values of what the filters say, and
    its query means the result. -/
theorem outcome {stages : List Stage} (hm : q.Means I row model root v)
    (h : q.Orderly model root) (hstages : ∀ s ∈ stages, s.lambda.WellFormed) {es : List Expr}
    (ho : model.context.outcome stages q = some (r, es)) :
    (∃ as, Stage.conditions (I.plain row) stages v = as.map .value ∧
      List.Forall₂ (Expr.HasValue I row) es as) ∧
      r.Means I row model root (Stage.result (I.plain row) stages v) := by
  induction stages generalizing q v es with
  | nil =>
    cases ho
    exact ⟨⟨[], rfl, .nil⟩, hm⟩
  | cons stage rest ih =>
    have hl := hstages stage List.mem_cons_self
    have hrest := fun s hs => hstages s (List.mem_cons_of_mem stage hs)
    cases stage with
    | filter l =>
      obtain ⟨e, he, ho⟩ := Option.bind_eq_some_iff.mp ho
      obtain ⟨⟨r', es'⟩, hr', hr⟩ := Option.map_eq_some_iff.mp ho
      cases hr
      obtain ⟨⟨as, hconditions, has⟩, hmeans⟩ := ih hm h hrest hr'
      have hfollows := I.follows_lambda row h.grounded.rooted hl.plain hm.follows
      obtain ⟨a, ha, hea⟩ := hfollows.of_value? he
      refine ⟨⟨a :: as, ?_, .cons hea has⟩, hmeans⟩
      have hcondition : l.content (I.plain row) v = .value a := Content.eq_value_of_value? ha
      rw [Stage.conditions, hconditions, hcondition]
      rfl
    | project l =>
      obtain ⟨b, hb, ho⟩ := Option.bind_eq_some_iff.mp ho
      exact ih (hm.projected h hl hb _) (h.projected hl hb h.grounded.faithful) hrest ho

end Query.Means

/-! ## 3. The meaning of a chain -/

theorem Expr.HasValue.foldl_both {es : List Expr} {as : List α}
    (h : List.Forall₂ (Expr.HasValue I row) es as) {e : Expr} {a : α} (he : e.HasValue I row a) :
    (es.foldl Expr.both e).HasValue I row (as.foldl (I.binary .and) a) := by
  induction h generalizing e a with
  | nil => exact he
  | cons hd _ ih => exact ih (he.ofBinary hd .and)

/-- The joined conditions have the joined values. -/
theorem Expr.eval_conjunction {es : List Expr} {as : List α}
    (h : List.Forall₂ (Expr.HasValue I row) es as) :
    (Expr.conjunction es).map (Expr.eval I row) = (I.conjunction as).map some := by
  cases h with
  | nil => rfl
  | cons he hes => exact congrArg some (Expr.HasValue.foldl_both hes he)

/-- **The query of a chain means what the chain means**, over every domain of values and every row
    of attributes. What the filters say are values, and the condition of the query has the value of
    all of them joined in turn; the result says something everywhere, the row of the query reads as
    the result, and every recorded expression is a leaf of it. -/
theorem Model.translation_preserves_meaning (I : Interpretation α) (row : String → α)
    {model : Model} {entity : String} {stages : List Stage} {q : Query}
    (hstages : ∀ s ∈ stages, s.lambda.WellFormed)
    (h : model.context.run (Chain.staged entity stages) = .ok q) :
    ∃ root conditions result,
      model.find? entity = some root ∧
      Stage.conditions (I.plain row) stages (.row (some root)) = conditions.map .value ∧
      q.shape.filter.map (Expr.eval I row) = (I.conjunction conditions).map some ∧
      Stage.result (I.plain row) stages (.row (some root)) = result ∧
      result.Full ∧
      q.row.content (I.recorded row model q.shape) Scope.empty = result ∧
      ∀ path e, q.shape.projection.get? path = some e → e.IsLeaf I row root result path := by
  obtain ⟨root, es, hroot, hq, ho, hfilter⟩ := outcome_of_run_staged h
  obtain ⟨⟨as, hconditions, has⟩, hmeans⟩ :=
    Query.Means.outcome (.start hq.rooted.found) (.start hroot) hstages ho
  refine ⟨root, as, _, hroot, hconditions, ?_, rfl, hmeans.full, hmeans.row_eq, hmeans.leaves⟩
  rw [hfilter]
  exact Expr.eval_conjunction has

/-- Two filters and two projections, over every reading of the operations by numbers. -/
theorem Model.translation_preserves_meaning_of_adults :
    ∃ q, people.context.run (Chain.staged "Person" Stage.adults) = .ok q ∧
      ∀ (I : Interpretation Nat) (row : String → Nat),
        q.shape.filter.map (Expr.eval I row) =
          some (some (I.binary .and (I.beginsWith (row "Name") (I.literal (.string "A")))
            (I.binary .greater (row "age") (I.literal (.int32 18))))) ∧
        q.row.content (I.recorded row people q.shape) Scope.empty =
          .object [("name", .value (row "Name")),
            ("all", .object [("who", .row (some .person)), ("age", .value (row "age"))])] := by
  obtain ⟨q, hq⟩ := (runs_staged_iff people "Person" Stage.adults).mpr ⟨.person, rfl, by decide⟩
  refine ⟨q, hq, fun I row => ?_⟩
  obtain ⟨root, conditions, result, hroot, hconditions, hfilter, hresult, _, hrow, _⟩ :=
    translation_preserves_meaning I row (by decide) hq
  have hperson : some Entity.person = some root := hroot
  cases hperson
  constructor
  · have hvalues : [I.beginsWith (row "Name") (I.literal (.string "A")),
        I.binary .greater (row "age") (I.literal (.int32 18))].map Content.value =
        conditions.map Content.value := hconditions
    have hinjective : Function.Injective (Content.value : Nat → Content Nat (Option Entity)) :=
      fun a b h => by
        cases h
        rfl
    rw [hfilter, ← List.map_injective_iff.mpr hinjective hvalues]
    rfl
  · rw [hrow, ← hresult]
    rfl

end EntityQuery
