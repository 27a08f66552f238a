import EntityQuery.Proofs.UniformQuery

/-!
Literal values cannot influence the statement.

* `Shape.Uniform.text_statement` -- **the text of a statement does not hang on payloads**;
* `Shape.slotted_written` -- its constants are literals with the same numbers;
* `Chain.staged_of_run` -- a chain that has a query with some payloads is an entity and stages;
* `Model.runs_of_payloads` -- the statements of a chain have one text, and their parameters are the
  literals with the same numbers;
* `Model.payloads_do_not_influence` -- the same for a chain and another with other payloads.
-/
namespace EntityQuery

variable {P : Nat → Literal → Prop}

/-! ## 1. Statements -/

/-- Uniform conditions are joined to a uniform condition. -/
theorem Expr.uniform_conjunction {es : Payloads → List Expr}
    (h : EachUniform (Expr.Uniform P) es) :
    Uniformly (Expr.Uniform P) fun g => Expr.conjunction (es g) := by
  cases h with
  | nil => exact .none
  | @cons e es he hes =>
    have hfold : ∀ e, Expr.Uniform P e → Expr.Uniform P fun g => (es g).foldl Expr.both (e g) := by
      clear he
      induction hes with
      | nil => exact fun _ he => he
      | cons hd _ ih => exact fun e he => ih _ (he.ofBinary .and hd)
    exact .some (hfold e he)

theorem Shape.filter_cases {shape : Payloads → Shape}
    (h : Uniformly (Expr.Uniform P) fun g => (shape g).filter) :
    (∀ g, (shape g).filter = none) ∨
      ∃ e, Expr.Uniform P e ∧ ∀ g, (shape g).filter = some (e g) := h

/-- **The text of a statement does not hang on payloads.** -/
theorem Shape.Uniform.text_statement {shape : Payloads → Shape} (h : Shape.Uniform P shape)
    (hfilter : Uniformly (Expr.Uniform P) fun g => (shape g).filter)
    (horder : ∀ g, (shape g).order = []) (g : Payloads) :
    Alike Statement.text (shape g).statement (shape .same).statement := by
  have hwhere : Alike Statement.text (shape g).whereClause (shape .same).whereClause := by
    unfold Shape.whereClause
    obtain hnone | ⟨e, he, hsome⟩ := filter_cases hfilter
    · rw [hnone g, hnone .same]
      rfl
    · rw [hsome g, hsome .same]
      refine (he.text_render g false).bind fun s t hst => .ok ?_
      rw [Statement.text_append, Statement.text_append, hst]
  unfold Shape.statement
  rw [orderClause_of_nil (horder g), orderClause_of_nil (horder .same), h.selectList_eq g,
    h.source g]
  refine hwhere.bind fun s t hst => .ok ?_
  simp only [Statement.text_append, hst]

/-- The constants of the conditions are literals with numbers, each with its payload. -/
theorem Shape.slotted_written {shape : Payloads → Shape}
    (hfilter : Uniformly (Expr.Uniform P) fun g => (shape g).filter)
    (horder : ∀ g, (shape g).order = []) :
    Expr.Slotted P fun g => (shape g).written.flatMap Expr.constants := by
  unfold Shape.written
  obtain hnone | ⟨e, he, hsome⟩ := filter_cases hfilter
  · simp only [hnone, horder]
    exact .nil
  · simp only [hsome, horder, List.map_nil, List.append_nil, Option.toList_some,
      List.flatMap_singleton]
    exact he.constants

/-! ## 2. Chains -/

/-- Only filters and projections succeed, whatever their payloads. -/
theorem Stage.of_applyAll {ctx : Context} {g : Payloads} {n : Nat} {ops : List Operator}
    {q q' : Query} (h : ctx.applyAll (Operator.withPayloadsIn g n ops) q = (.ok (), q')) :
    ∃ stages : List Stage, ops = stages.map operator := by
  induction ops generalizing n q with
  | nil => exact ⟨[], rfl⟩
  | cons op ops ih =>
    rw [Operator.withPayloadsIn] at h
    obtain ⟨after, hop, hrest⟩ := Context.applyAll_cons_cases h
    obtain ⟨stages, rfl⟩ := ih hrest
    cases op with
    | filter l => exact ⟨.filter l :: stages, rfl⟩
    | project l => exact ⟨.project l :: stages, rfl⟩
    | _ => cases hop

/-- A chain that has a query with some payloads is an entity and stages. -/
theorem Chain.staged_of_run {ctx : Context} {g : Payloads} {chain : Chain} {q : Query}
    (h : ctx.run (chain.withPayloads g) = .ok q) :
    ∃ entity stages, chain = Chain.staged entity stages := by
  obtain ⟨entity, ops, start, hchain, _, happly⟩ := Context.run_cases h
  cases chain with
  | nil => cases hchain
  | cons op rest =>
    cases op with
    | source _ =>
      cases hchain
      obtain ⟨stages, rfl⟩ := Stage.of_applyAll happly
      exact ⟨entity, stages, rfl⟩
    | _ => cases hchain

theorem Chain.withPayloads_staged (g : Payloads) (entity : String) (stages : List Stage) :
    (Chain.staged entity stages).withPayloads g =
      Chain.staged entity (Stage.withPayloadsIn g 0 stages) :=
  congrArg (Operator.source entity :: ·) (Stage.withPayloadsIn_map_operator g 0 stages)

theorem Chain.literals_staged (entity : String) (stages : List Stage) :
    (Chain.staged entity stages).literals = Stage.literalsIn stages :=
  Stage.literalsIn_map_operator stages

namespace Model

/-- If a chain has a query with some payloads, it has one with all payloads, and their shapes and
    conditions are uniform. -/
theorem uniform_runs {model : Model} {entity : String} {stages : List Stage} {g₀ : Payloads}
    {q₀ : Query} (hplaced : Placed P 0 (Stage.literalsIn stages))
    (h₀ : model.context.run (Chain.staged entity (Stage.withPayloadsIn g₀ 0 stages)) = .ok q₀) :
    ∃ q : Payloads → Query,
      (∀ g, model.context.run (Chain.staged entity (Stage.withPayloadsIn g 0 stages)) =
        .ok (q g)) ∧
      Shape.Uniform P (fun g => (q g).shape) ∧
      Uniformly (Expr.Uniform P) fun g => (q g).shape.filter := by
  obtain ⟨root, es₀, hroot, _, ho₀, _⟩ := outcome_of_run_staged h₀
  obtain hnone | ⟨r, ⟨hr, hes⟩, ho⟩ :
      (∀ g, model.context.outcome (Stage.withPayloadsIn g 0 stages) (.of root) = none) ∨
      ∃ r, Context.UniformOutcome P r ∧
        ∀ g, model.context.outcome (Stage.withPayloadsIn g 0 stages) (.of root) = some (r g) :=
    Context.uniform_outcome model (.start root) hplaced
  · rw [hnone g₀] at ho₀
    cases ho₀
  · choose q hrun _ hbare hconditions using fun g => run_staged_of_outcome hroot (ho g)
    have hshape : Shape.Uniform P fun g => (q g).bare.shape := by
      simp only [hbare]
      exact hr.shape
    refine ⟨q, hrun, ⟨hshape.source, hshape.projection⟩, ?_⟩
    simp only [hconditions]
    exact Expr.uniform_conjunction hes

/-- **The statements of a chain with all payloads have one text**, and their parameters are the
    literals with the same numbers; or the chain has no query, whatever its payloads. -/
theorem runs_of_payloads (model : Model) (chain : Chain) :
    (∀ g, ¬∃ q, model.context.run (chain.withPayloads g) = .ok q) ∨
    ∃ (text : String) (slots : List (Nat × Literal × Option Mapping)),
      (∀ slot ∈ slots, chain.literals[slot.1]? = some slot.2.1) ∧
      ∀ g : Payloads, ∃ q s, model.context.run (chain.withPayloads g) = .ok q ∧
        q.shape.statement = .ok s ∧ s.text = text ∧
        s.parameters = slots.map fun slot => .ofConstant (g.of slot.1 slot.2.1, slot.2.2) := by
  by_cases hruns : ∃ g q, model.context.run (chain.withPayloads g) = .ok q
  · -- one of the runs comes to a query, so the operators are stages, and all runs do
    obtain ⟨g₀, q₀, h₀⟩ := hruns
    obtain ⟨entity, stages, rfl⟩ := Chain.staged_of_run h₀
    simp only [Chain.withPayloads_staged, Chain.literals_staged] at h₀ ⊢
    have hplaced : Placed (fun i v => (Stage.literalsIn stages)[i]? = some v) 0
        (Stage.literalsIn stages) := by
      intro i v hi
      rwa [Nat.zero_add]
    obtain ⟨q, hrun, hshape, hfilter⟩ := uniform_runs hplaced h₀
    choose root hq using fun g => Query.Renderable.of_run (hrun g)
    choose s hs using fun g => (hq g).exists_statement
    have horder : ∀ g, (q g).shape.order = [] := fun g => (hq g).unordered
    obtain ⟨slots, hslots, hconstants⟩ := Shape.slotted_written hfilter horder
    refine Or.inr ⟨(s .same).text, slots, hslots, fun g => ⟨q g, s g, hrun g, hs g, ?_, ?_⟩⟩
    · have htext := hshape.text_statement hfilter horder g
      rw [hs g, hs .same] at htext
      exact Except.ok.inj htext
    · have hfits := Shape.fits_statement (hq g).bareName_of_mem (hs g)
      rw [hfits.parameters]
      exact (congrArg (List.map Parameter.ofConstant) (hconstants g)).trans List.map_map
  · exact Or.inl fun g hg => hruns ⟨g, hg⟩

/-- **Literal values cannot influence the statement.** A chain with other payloads in its literals
    has a query exactly if the chain has one. The statements of both then have one text, and their
    parameters the same number and types; and there are numbers, whatever the other payloads, of
    the literals that the parameters are in turn, in either chain. -/
theorem payloads_do_not_influence (model : Model) (chain : Chain) :
    ∃ origins : List Nat, ∀ g : Payloads,
      ((∃ q, model.context.run (chain.withPayloads g) = .ok q) ↔
        ∃ q, model.context.run chain = .ok q) ∧
      ∀ q q', model.context.run chain = .ok q →
        model.context.run (chain.withPayloads g) = .ok q' →
        ∃ s s', q.shape.statement = .ok s ∧ q'.shape.statement = .ok s' ∧
          s'.text = s.text ∧
          s'.parameters.map Parameter.type = s.parameters.map Parameter.type ∧
          (s.parameters.map fun p => some p.value) =
            origins.map (fun i => chain.literals[i]?.map Literal.storedValue) ∧
          (s'.parameters.map fun p => some p.value) =
            origins.map fun i => (chain.withPayloads g).literals[i]?.map Literal.storedValue := by
  rcases runs_of_payloads model chain with hnone | ⟨text, slots, hslots, hruns⟩
  · refine ⟨[], fun g => ⟨iff_of_false (hnone g) ?_, fun q _ h _ => ?_⟩⟩
    · exact chain.withPayloads_same ▸ hnone .same
    · exact absurd ⟨q, by rw [chain.withPayloads_same]; exact h⟩ (hnone .same)
  · refine ⟨slots.map Prod.fst, fun g => ?_⟩
    obtain ⟨q₁, s, hq, hs, htext, hparameters⟩ := hruns .same
    obtain ⟨q₂, s', hq', hs', htext', hparameters'⟩ := hruns g
    rw [chain.withPayloads_same] at hq
    refine ⟨iff_of_true ⟨q₂, hq'⟩ ⟨q₁, hq⟩, fun q q' h h' => ?_⟩
    cases hq.symm.trans h
    cases hq'.symm.trans h'
    refine ⟨s, s', hs, hs', htext'.trans htext.symm, ?_, ?_, ?_⟩
    · rw [hparameters, hparameters', List.map_map, List.map_map]
      refine List.map_congr_left fun slot _ => ?_
      show (slot.2.2.map Mapping.stored).getD (g.of slot.1 slot.2.1).type.stored = _
      rw [g.type_of]
      rfl
    · rw [hparameters, List.map_map, List.map_map]
      refine List.map_congr_left fun slot hslot => ?_
      show some slot.2.1.storedValue = chain.literals[slot.1]?.map Literal.storedValue
      rw [hslots slot hslot]
      rfl
    · rw [hparameters', List.map_map, List.map_map]
      refine List.map_congr_left fun slot hslot => ?_
      show some (g.of slot.1 slot.2.1).storedValue =
        (chain.withPayloads g).literals[slot.1]?.map Literal.storedValue
      rw [chain.literals_withPayloads, g.getElem?_along, hslots slot hslot, Nat.zero_add]
      rfl

end Model

/-- A text that tries to be more than a text, and another number. -/
def Payloads.hostile : Payloads where
  of _ v :=
    match v with
    | .string _ => .string "A\" OR \"age\" = ?"
    | .int32 _ => .int32 65
    | v => v
  type_of _ v := by cases v <;> rfl

/-- With hostile payloads the statement of a chain is the one it was, and the payloads are its
    parameters. -/
theorem Model.payloads_do_not_influence_of_hostile :
    ∃ q q' s s', people.context.run (Chain.staged "Person" Stage.adults) = .ok q ∧
      people.context.run ((Chain.staged "Person" Stage.adults).withPayloads .hostile) = .ok q' ∧
      q.shape.statement = .ok s ∧ q'.shape.statement = .ok s' ∧ s'.text = s.text ∧
      s'.parameters.map Parameter.type = s.parameters.map Parameter.type := by
  obtain ⟨origins, h⟩ :=
    payloads_do_not_influence people (Chain.staged "Person" Stage.adults)
  obtain ⟨q, hq⟩ := (runs_staged_iff people "Person" Stage.adults).mpr ⟨.person, rfl, by decide⟩
  obtain ⟨q', hq'⟩ := (h .hostile).1.mpr ⟨q, hq⟩
  obtain ⟨s, s', hs, hs', htext, htypes, _⟩ := (h .hostile).2 q q' hq hq'
  exact ⟨q, q', s, s', hq, hq', hs, hs', htext, htypes⟩

end EntityQuery
