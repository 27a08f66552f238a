import EntityQuery.Proofs.Kinds

/-!
How the parameters of well-typed filters are stored.

* `FollowsKind` -- an expression is as the kind of its term says, if the term has a kind;
* `Model.ofKind_reading` -- **lowering follows the kinds**;
* `Model.ofKind_condition` -- so does the condition of a filter;
* `Model.parameters_keep_types_but_for_flags` -- a parameter of a statement is stored as its own
  type says, unless it is a truth value beside an operation.
-/
namespace EntityQuery

/-! ## 1. Lowering -/

/-- A cast is lowered between types that are stored alike only. -/
theorem UnaryOp.storedAlike_of_lower {target : ValueType} {operand e : Expr}
    (h : ((UnaryOp.convert target).lower default operand).toOption = some e) :
    e = operand ∧ operand.type.storedAlike target = true := by
  unfold UnaryOp.lower at h
  simp only at h
  split at h
  · rename_i halike
    cases h
    exact ⟨rfl, halike⟩
  · cases h

/-- If a term has a kind, its expression belongs to it. -/
def FollowsKind (e : Expr) (kind? : Option Kind) : Prop := ∀ k, kind? = some k → e.OfKind k

namespace FollowsKind

variable {e : Expr} {kind? : Option Kind}

theorem unary (h : FollowsKind e kind?) {op : UnaryOp} {e' : Expr}
    (he' : (op.lower default e).toOption = some e') : FollowsKind e' (kind?.bind (Kind.unary op)) := by
  intro k' hk'
  obtain ⟨k, hk, hk'⟩ := Option.bind_eq_some_iff.mp hk'
  have hkind := h k hk
  cases op with
  | not =>
    cases he'
    cases hk'
    exact hkind.ofUnary .not (Or.inl rfl)
  | negate =>
    cases he'
    cases hk'
    exact hkind.ofUnary .negate (Or.inr rfl)
  | negateChecked =>
    cases he'
    cases hk'
    exact hkind.ofUnary .negate (Or.inr rfl)
  | plus =>
    cases he'
    cases hk'
    exact hkind
  | convert target =>
    obtain ⟨rfl, halike⟩ := UnaryOp.storedAlike_of_lower he'
    cases hk'
    exact hkind.convert halike
  | complement => cases hk'
  | arrayLength => cases hk'

theorem binary {left right : Expr} {a? b? : Option Kind} (hl : FollowsKind left a?)
    (hr : FollowsKind right b?) {op : BinaryOp} (he : (op.lower left right).toOption = some e) :
    FollowsKind e (a?.bind fun a => b?.bind fun b => Kind.binary op a b) := by
  intro k hk
  obtain ⟨a, ha, hk⟩ := Option.bind_eq_some_iff.mp hk
  obtain ⟨b, hb, hk⟩ := Option.bind_eq_some_iff.mp hk
  obtain ⟨op', hop', rfl⟩ := BinaryOp.lower_cases he
  unfold Kind.binary at hk
  rw [hop', Option.bind_some] at hk
  split at hk
  · rename_i hcomparable
    cases hk
    unfold Expr.ofBinary
    cases hlogical : op'.isLogical with
    | true => exact Expr.OfKind.join hlogical (hl a ha) (hr b hb)
    | false =>
      rw [hlogical, Bool.false_or] at hcomparable
      exact Expr.OfKind.compare hlogical (hl a ha) (hr b hb) hcomparable
  · cases hk

theorem call {model : Model} {receiver : Expr} {a? : Option Kind} {method : Method}
    {arguments : List Expr} {bs : List (Option Kind)} (hr : FollowsKind receiver a?)
    (ha : List.Forall₂ FollowsKind arguments bs)
    (he : (model.context.lowerCall receiver method arguments).toOption = some e) :
    ∃ k?, model.kinds.call a? method bs = some k? ∧ FollowsKind e k? := by
  obtain ⟨argument, rfl, hmethod⟩ := Model.lowerCall_cases he
  cases ha with
  | @cons _ b? _ _ hb hnil =>
    cases hnil
    refine ⟨_, rfl, fun k hk => ?_⟩
    obtain ⟨a, ha, hk⟩ := Option.bind_eq_some_iff.mp hk
    obtain ⟨b, hb', hk⟩ := Option.bind_eq_some_iff.mp hk
    obtain ⟨rfl, ha', hb''⟩ := Kind.call_cases hk
    have hkind := fun function => Expr.OfKind.call function (hr a ha) (hb b hb') ha' hb''
    rcases hmethod with ⟨_, rfl⟩ | ⟨_, rfl⟩
    · exact hkind "BEGINS_WITH"
    · exact hkind "CONTAINS"

end FollowsKind

namespace Model

/-- **Lowering follows the kinds**: the expression of a term belongs to its kind. -/
theorem ofKind_reading (model : Model) (shape : Shape) :
    Reading.Follows FollowsKind (fun r entity => r.entity = entity)
      (model.context.reading shape) model.kinds where
  literal value := by
    intro k hk
    cases hk
    exact .literal value
  null type := by
    intro k hk
    cases hk
    exact .null type
  field r entity label e hr he := by
    subst hr
    obtain ⟨p, hp, rfl⟩ := Option.map_eq_some_iff.mp he
    refine ⟨_, rfl, fun k hk => ?_⟩
    have hfound : (model.find? r.entity).bind (fun e => e.find? label) = some p := by
      unfold NamedRow.property? at hp
      split at hp
      · exact hp
      · cases hp
    rw [hfound] at hk
    cases hk
    exact .attr p shape.source
  unary op e k? e' he he' := ⟨_, rfl, he.unary he'⟩
  binary op e₁ a? e₂ b? e' h₁ h₂ he' := ⟨_, rfl, h₁.binary h₂ he'⟩
  call e a? method es bs e' he hes he' := he.call hes he'
  row _ _ := rfl
  bound _ _ _ := ⟨none, rfl, fun _ hk => by cases hk⟩

/-- The condition that a well-typed lambda says of the rows of an entity belongs to its kind. -/
theorem ofKind_condition {model : Model} {root : Entity} {l : Lambda} {e : Expr} {k : Kind}
    (hk : l.kind? model root.name = some k)
    (he : model.context.condition? l (.of root) = some e) : e.OfKind k := by
  have hscope : ∀ name, Content.Follows FollowsKind (fun r entity => r.entity = entity)
      (Scope.empty.set l.parameter ((Query.of root).content model.context) name)
      (Scope.empty.set l.parameter (.row root.name) name) := by
    intro name
    unfold Scope.set
    split
    · exact .row rfl
    · exact .nothing _
  have hfollows := Term.follows_content (model.ofKind_reading (Query.of root).shape) hscope l.body
  obtain ⟨k?, hk?, hkind⟩ := hfollows.of_value? he
  unfold Lambda.kind? Lambda.content at hk
  rw [hk?] at hk
  exact hkind k hk

end Model

/-! ## 2. Chains of filters -/

theorem Context.condition_of_outcome {ctx : Context} {predicates : List Lambda} {q r : Query}
    {es : List Expr} (h : ctx.outcome (predicates.map .filter) q = some (r, es)) :
    ∀ e ∈ es, ∃ l ∈ predicates, ctx.condition? l q = some e := by
  induction predicates generalizing es with
  | nil =>
    cases h
    exact fun e he => absurd he List.not_mem_nil
  | cons l rest ih =>
    obtain ⟨e, he, h⟩ := Option.bind_eq_some_iff.mp h
    obtain ⟨⟨r', es'⟩, hrest, heq⟩ := Option.map_eq_some_iff.mp h
    cases heq
    intro d hd
    rcases List.mem_cons.mp hd with rfl | hd
    · exact ⟨l, List.mem_cons_self, he⟩
    · obtain ⟨m, hm, hd⟩ := ih hrest d hd
      exact ⟨m, List.mem_cons_of_mem l hm, hd⟩

theorem Expr.accounted_conjunction {es : List Expr} (h : ∀ e ∈ es, ∃ k, e.OfKind k) {e : Expr}
    (he : Expr.conjunction es = some e) : e.Accounted := by
  have hfold : ∀ (es : List Expr) (e : Expr), (∃ k, e.OfKind k) → (∀ d ∈ es, ∃ k, d.OfKind k) →
      ∃ k, (es.foldl Expr.both e).OfKind k := by
    intro es
    induction es with
    | nil => exact fun _ he _ => he
    | cons d es ih =>
      intro e ⟨a, ha⟩ hes
      obtain ⟨b, hb⟩ := hes d List.mem_cons_self
      exact ih (e.both d) ⟨.of .bool, OfKind.join rfl ha hb⟩
        fun c hc => hes c (List.mem_cons_of_mem d hc)
  cases es with
  | nil => cases he
  | cons d es =>
    cases he
    obtain ⟨k, hk⟩ := hfold es d (h d List.mem_cons_self)
      fun c hc => h c (List.mem_cons_of_mem d hc)
    exact hk.accounted

theorem Expr.Accounted.keepsType_iff {e : Expr} (h : e.Accounted) :
    (∀ c ∈ e.constants, KeepsType c) ↔ ¬ e.HasFlagCompared := by
  constructor
  · intro hkeeps hflag
    obtain ⟨c, hc, hlost⟩ := h.told hflag
    exact hlost (hkeeps c hc)
  · intro hnone c hc
    by_contra hlost
    exact hnone (h.kept c hc hlost).2

/-- The literals of a condition other than null, from left to right. -/
def Shape.literals (shape : Shape) : List Literal :=
  (shape.filter.toList.flatMap Expr.constants).map Prod.fst

namespace Model

/-- The parameters of a statement are the constants of its condition. -/
theorem parameters_of_run {model : Model} {chain : Chain} {q : Query}
    (h : model.context.run chain = .ok q) :
    ∃ s, model.context.statement chain = .ok s ∧
      s.parameters = (q.shape.filter.toList.flatMap Expr.constants).map Parameter.ofConstant := by
  obtain ⟨root, hq⟩ := Query.Renderable.of_run h
  obtain ⟨s, hs⟩ := hq.exists_statement
  have hwritten : q.shape.written = q.shape.filter.toList := by
    simp [Shape.written, hq.unordered]
  refine ⟨s, Context.statement_of_run h hs, ?_⟩
  rw [← hwritten]
  exact (Shape.fits_statement hq.bareName_of_mem hs).parameters

/-- **Parameters keep their types, but for truth values beside operations.** The parameters of a
    chain of well-typed filters are its literals other than null, in turn. All but truth values are
    stored as their own types say; and all of them are exactly if no truth value is compared with an
    operation whose mapping is not that of truth values. -/
theorem parameters_keep_types_but_for_flags (model : Model) (entity : String)
    (predicates : List Lambda) (q : Query)
    (hrun : model.context.run (.source entity :: predicates.map .filter) = .ok q)
    (htyped : ∀ l ∈ predicates, (l.kind? model entity).isSome = true) :
    ∃ s, model.context.statement (.source entity :: predicates.map .filter) = .ok s ∧
      s.parameters.map Parameter.value = q.shape.literals.map Literal.storedValue ∧
      (∀ p ∈ s.parameters.zip q.shape.literals, p.2.type ≠ .bool → p.1.type = p.2.type.stored) ∧
      (s.parameters.map Parameter.type = q.shape.literals.map (fun v => v.type.stored) ↔
        ∀ e, q.shape.filter = some e → ¬ e.HasFlagCompared) := by
  obtain ⟨s, hs, hparameters⟩ := parameters_of_run hrun
  have hstaged : Chain.staged entity (predicates.map .filter) =
      .source entity :: predicates.map .filter := by
    simp [Chain.staged, Stage.operator]
  obtain ⟨root, es, hroot, _, ho, hfilter⟩ := outcome_of_run_staged (hstaged ▸ hrun)
  have haccounted : ∀ e, q.shape.filter = some e → e.Accounted := by
    intro e he
    refine Expr.accounted_conjunction (fun d hd => ?_) (hfilter.symm.trans he)
    obtain ⟨l, hl, hcondition⟩ := Context.condition_of_outcome ho d hd
    obtain ⟨k, hk⟩ := Option.isSome_iff_exists.mp (htyped l hl)
    rw [← Model.name_of_find? hroot] at hk
    exact ⟨k, ofKind_condition hk hcondition⟩
  refine ⟨s, hs, ?_, ?_, ?_⟩
  · rw [hparameters, Shape.literals, List.map_map, List.map_map]
    rfl
  · rw [hparameters, Shape.literals, List.zip_map']
    intro p hp hbool
    obtain ⟨c, hc, rfl⟩ := List.mem_map.mp hp
    obtain ⟨e, he, hc⟩ := List.mem_flatMap.mp hc
    refine (keepsType_iff c).mp ?_
    by_contra hlost
    exact hbool ((haccounted e (Option.mem_toList.mp he)).kept c hc hlost).1
  · rw [hparameters, Shape.literals, List.map_map, List.map_map, List.map_inj_left]
    constructor
    · intro hkeeps e he
      refine (haccounted e he).keepsType_iff.mp fun c hc => (keepsType_iff c).mpr ?_
      exact hkeeps c (List.mem_flatMap.mpr ⟨e, Option.mem_toList.mpr he, hc⟩)
    · intro hnone c hc
      obtain ⟨e, he, hc⟩ := List.mem_flatMap.mp hc
      have he' := Option.mem_toList.mp he
      exact (keepsType_iff c).mp ((haccounted e he').keepsType_iff.mpr (hnone e he') c hc)

/-- Active people with a name that starts so, then those of them who are older. -/
def activeAdults : String :=
  "Person.Where(p => p.Active == true && p.Name.StartsWith('A')).Where(p => 18 < p.Age)"

/-- A truth value beside an attribute, a character and a number, all stored as they are. -/
theorem parameters_keep_types_but_for_flags_of_active :
    ∃ (predicates : List Lambda) (q : Query) (s : Statement),
      Chain.parse activeAdults = .ok (.source "Person" :: predicates.map .filter) ∧
      members.context.run (.source "Person" :: predicates.map .filter) = .ok q ∧
      (∀ l ∈ predicates, (l.kind? members "Person").isSome = true) ∧
      members.context.statement (.source "Person" :: predicates.map .filter) = .ok s ∧
      q.shape.literals = [.bool true, .char 'A', .int32 18] ∧
      s.parameters.map Parameter.type = [.boolean, .text, .number] := by
  have hfilters : (Chain.filtersOf? activeAdults).any (fun f => f.1 = "Person" &&
      f.2.all fun l => (l.kind? members "Person").isSome) = true := by
    decide +kernel
  have hcondition : (members.conditionOf? activeAdults).any (fun e =>
      e.constants.map Prod.fst = [.bool true, .char 'A', .int32 18] &&
        e.nodes.all fun n => !n.comparesFlag) = true := by
    decide +kernel
  obtain ⟨⟨entity, predicates⟩, hf, hcheck⟩ := (Option.any_eq_true _ _).mp hfilters
  obtain ⟨hentity, htyped⟩ := Bool.and_eq_true_iff.mp hcheck
  cases of_decide_eq_true hentity
  obtain ⟨e, he, hcheck⟩ := (Option.any_eq_true _ _).mp hcondition
  obtain ⟨hconstants, hflags⟩ := Bool.and_eq_true_iff.mp hcheck
  obtain ⟨chain, q, hparse, hrun, hfilter⟩ := exists_of_conditionOf? he
  cases hparse.symm.trans (Chain.parse_of_filtersOf? hf)
  obtain ⟨s, hs, _, _, htypes⟩ := parameters_keep_types_but_for_flags members "Person" predicates q
    hrun (List.all_eq_true.mp htyped)
  have hliterals : q.shape.literals = [.bool true, .char 'A', .int32 18] := by
    rw [Shape.literals, hfilter, Option.toList_some, List.flatMap_singleton]
    exact of_decide_eq_true hconstants
  have hnone : ∀ d, q.shape.filter = some d → ¬ d.HasFlagCompared := by
    rintro d hd ⟨n, hn, hflag⟩
    cases hfilter.symm.trans hd
    have hn' := List.all_eq_true.mp hflags n hn
    rw [hflag] at hn'
    cases hn'
  refine ⟨predicates, q, s, hparse, hrun, List.all_eq_true.mp htyped, hs, hliterals, ?_⟩
  rw [htypes.mpr hnone, hliterals]
  rfl

/-- A comparison that is said to be true. -/
def comparedWithTrue : String := "Person.Where(p => (p.Age > 10) == true)"

/-- **A truth value beside a comparison of numbers is stored as a number**, in a filter that is well
    typed. -/
theorem flag_beside_comparison_loses_type :
    ∃ (predicates : List Lambda) (s : Statement),
      Chain.parse comparedWithTrue = .ok (.source "Person" :: predicates.map .filter) ∧
      (∀ l ∈ predicates, l.kind? members "Person" = some (.of .bool)) ∧
      members.context.statement (.source "Person" :: predicates.map .filter) = .ok s ∧
      s.parameters = [⟨.number, .text "10"⟩, ⟨.number, .flag true⟩] := by
  have hfilters : (Chain.filtersOf? comparedWithTrue).any (fun f => f.1 = "Person" &&
      f.2.all fun l => l.kind? members "Person" = some (.of .bool)) = true := by
    decide +kernel
  have hcondition : (members.conditionOf? comparedWithTrue).any (fun e =>
      e.constants.map Parameter.ofConstant = [⟨.number, .text "10"⟩, ⟨.number, .flag true⟩]) =
        true := by
    decide +kernel
  obtain ⟨⟨entity, predicates⟩, hf, hcheck⟩ := (Option.any_eq_true _ _).mp hfilters
  obtain ⟨hentity, htyped⟩ := Bool.and_eq_true_iff.mp hcheck
  cases of_decide_eq_true hentity
  obtain ⟨e, he, hconstants⟩ := (Option.any_eq_true _ _).mp hcondition
  obtain ⟨chain, q, hparse, hrun, hfilter⟩ := exists_of_conditionOf? he
  cases hparse.symm.trans (Chain.parse_of_filtersOf? hf)
  obtain ⟨s, hs, hparameters⟩ := parameters_of_run hrun
  refine ⟨predicates, s, hparse, fun l hl => ?_, hs, ?_⟩
  · exact of_decide_eq_true (List.all_eq_true.mp htyped l hl)
  · rw [hparameters, hfilter, Option.toList_some, List.flatMap_singleton]
    exact of_decide_eq_true hconstants

end Model

end EntityQuery
