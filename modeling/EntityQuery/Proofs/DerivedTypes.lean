import EntityQuery.Proofs.OwnAttributes

/-!
Types and mappings of expressions are derived from their parts.

A constant gets its mapping when it becomes an operand, and the operation keeps a type and a mapping
of its own. Finished expressions are operands again later: what is bound at a path, what a cast or a
plus sign lets through, and the conditions that are joined. None of them changes by that, since only
a constant without a mapping takes one, and no constant has one before it is an operand.

* `Expr.ConstantHas` -- a constant has a given mapping;
* `Expr.Derived` -- type and mapping of one node come from its parts;
* `Expr.Inferred` -- so it is at every node, and a constant by itself has no mapping;
* `Expr.Inferred.ofUnary`, `ofBinary`, `ofCall` -- **each way to build an expression keeps this**;
* `Model.keeps_inferred` -- so do all the operations of lowering;
* `Query.Inferring` -- the invariant, with its start, its step and its run;
* `Model.types_and_mappings_are_derived` -- the same for the query of a whole chain.
-/
namespace EntityQuery

namespace Expr

/-! ## 1. Nodes -/

/-- The mapping of the expression is the given one, if it is a constant. -/
def ConstantHas (given : Option Mapping) : Expr → Prop
  | .constant _ _ mapping => mapping = given
  | _ => True

/-- Type and mapping of a node come from its parts.

    * A literal has its own type, and an attribute the mapping of the type of its property.
    * An operator has the type and mapping of its operand, the left one if there are two.
    * A function has truth values.
    * Constants have the mapping of what they are compared with; as arguments of a function they
      have that of the first argument; and elsewhere they have none, also as the first argument
      itself. -/
def Derived : Expr → Prop
  | .constant (some value) type _ => type = value.type
  | .constant none _ _ => True
  | .unary _ operand type mapping =>
    type = operand.type ∧ mapping = operand.mapping ∧ operand.ConstantHas none
  | .binary op left right type mapping =>
    type = left.type ∧ mapping = left.mapping ∧
      (op.isLogical = true → left.ConstantHas none ∧ right.ConstantHas none) ∧
      (op.isLogical = false → left.ConstantHas right.mapping ∧ right.ConstantHas left.mapping)
  | .call _ arguments type mapping =>
    type = .bool ∧ mapping = some (.of .bool) ∧
      (∀ first, arguments.head? = some first → first.ConstantHas none) ∧
      ∀ argument ∈ arguments, argument.ConstantHas (arguments.head?.bind Expr.mapping)
  | .attr ref => ref.property.mapping = ref.property.type.mapping?
  | .row _ => True

/-- Every node is derived from its parts, and the expression has no mapping if it is a constant. -/
structure Inferred (e : Expr) : Prop where
  bare : e.ConstantHas none
  derived : ∀ n ∈ e.nodes, n.Derived

/-! ## 2. Constants that take a mapping -/

@[simp] theorem assume_none (e : Expr) : e.assume none = e := by
  unfold assume
  split <;> rfl

theorem ConstantHas.assume {e : Expr} (h : e.ConstantHas none) (given : Option Mapping) :
    (e.assume given).ConstantHas given := by
  cases e with
  | constant value type mapping =>
    cases h
    rfl
  | _ => trivial

/-- A constant takes the mapping that its sibling has in the end. -/
theorem ConstantHas.beside {left : Expr} (h : left.ConstantHas none) (right : Expr) :
    (left.assume right.mapping).ConstantHas (right.assume left.mapping).mapping := by
  cases left with
  | constant value type mapping =>
    -- a constant has no mapping to give, so the sibling stays what it is
    cases h
    show right.mapping = (right.assume none).mapping
    rw [assume_none]
  | _ => trivial

/-- An expression keeps a mapping that is its own. -/
theorem assume_self (e : Expr) : e.assume e.mapping = e := by
  cases h : e.mapping with
  | none => exact assume_none e
  | some m => exact assume_of_mapping h

/-- Taking a mapping leaves every node derived. -/
theorem Inferred.derived_assume {e : Expr} (h : e.Inferred) (given : Option Mapping) :
    ∀ n ∈ (e.assume given).nodes, n.Derived := by
  cases e with
  | constant value type mapping =>
    cases h.bare
    have hnode := h.derived _ (List.mem_singleton_self _)
    intro n hn
    rw [List.mem_singleton.mp hn]
    cases value with
    | none => trivial
    | some v => exact hnode
  | _ => exact h.derived

/-! ## 3. Building expressions -/

namespace Inferred

theorem ofLiteral (value : Literal) : (Expr.ofLiteral value none).Inferred where
  bare := rfl
  derived := by
    intro n hn
    rw [List.mem_singleton.mp hn]
    exact rfl

theorem null (type : ValueType) : (Expr.null type).Inferred where
  bare := rfl
  derived := by
    intro n hn
    rw [List.mem_singleton.mp hn]
    trivial

theorem attr (p : Property) (source : Source) : (Expr.attr (.of p source)).Inferred where
  bare := trivial
  derived := by
    intro n hn
    rw [List.mem_singleton.mp hn]
    exact rfl

theorem row (ref : RowRef) : (Expr.row ref).Inferred where
  bare := trivial
  derived := by
    intro n hn
    rw [List.mem_singleton.mp hn]
    trivial

theorem ofUnary (op : UnaryOp) {e : Expr} (h : e.Inferred) : (Expr.ofUnary op e).Inferred where
  bare := trivial
  derived := by
    intro n hn
    rcases List.mem_cons.mp hn with rfl | hn
    · exact ⟨rfl, rfl, h.bare⟩
    · exact h.derived n hn

theorem ofBinary (op : BinaryOp) {left right : Expr} (hl : left.Inferred) (hr : right.Inferred) :
    (Expr.ofBinary op left right).Inferred := by
  unfold Expr.ofBinary
  cases hop : op.isLogical with
  | true =>
    refine ⟨trivial, fun n hn => ?_⟩
    rcases List.mem_cons.mp hn with rfl | hn
    · exact ⟨rfl, rfl, fun _ => ⟨hl.bare, hr.bare⟩, fun h => absurd (hop.symm.trans h) (by simp)⟩
    · rcases List.mem_append.mp hn with hn | hn
      · exact hl.derived n hn
      · exact hr.derived n hn
  | false =>
    refine ⟨trivial, fun n hn => ?_⟩
    rcases List.mem_cons.mp hn with rfl | hn
    · exact ⟨rfl, rfl, fun h => absurd (hop.symm.trans h) (by simp),
        fun _ => ⟨hl.bare.beside right, hr.bare.beside left⟩⟩
    · rcases List.mem_append.mp hn with hn | hn
      · exact hl.derived_assume right.mapping n hn
      · exact hr.derived_assume left.mapping n hn

/-- The first argument of a function keeps the mapping that it gives to the others. -/
theorem head?_ofCall (arguments : List Expr) :
    (arguments.map (Expr.assume (arguments.head?.bind Expr.mapping))).head? = arguments.head? := by
  cases arguments with
  | nil => rfl
  | cons first rest => exact congrArg some (assume_self first)

theorem ofCall (function : String) {arguments : List Expr} (h : ∀ e ∈ arguments, e.Inferred) :
    (Expr.ofCall function arguments .bool).Inferred := by
  refine ⟨trivial, fun n hn => ?_⟩
  rcases List.mem_cons.mp hn with rfl | hn
  · refine ⟨rfl, rfl, fun first hfirst => ?_, fun argument hargument => ?_⟩
    · rw [head?_ofCall] at hfirst
      exact (h first (List.mem_of_head? hfirst)).bare
    · rw [head?_ofCall]
      obtain ⟨e, he, rfl⟩ := List.mem_map.mp hargument
      exact (h e he).bare.assume _
  · rw [nodesIn_eq_flatMap] at hn
    obtain ⟨argument, hargument, hn⟩ := List.mem_flatMap.mp hn
    obtain ⟨e, he, rfl⟩ := List.mem_map.mp hargument
    exact (h e he).derived_assume _ n hn

end Inferred

end Expr

/-! ## 4. Lowering -/

/-- **Whatever terms stand for is derived from its parts**, where all that is projected is. -/
theorem Model.keeps_inferred (model : Model) {shape : Shape}
    (hvalues : ∀ entry ∈ shape.projection, entry.2.Inferred) :
    (model.context.reading shape).Keeps Expr.Inferred fun _ => True where
  literal value := .ofLiteral value
  null type := .null type
  field r label a _ ha := by
    obtain ⟨p, _, rfl⟩ := Option.map_eq_some_iff.mp ha
    exact .attr p shape.source
  unary op a b ha hb := by
    rcases UnaryOp.lower_cases hb with ⟨_, rfl⟩ | ⟨_, rfl⟩ | ⟨_, rfl⟩
    · exact ha.ofUnary .not
    · exact ha.ofUnary .negate
    · exact ha
  binary op a b c ha hb hc := by
    obtain ⟨op', _, rfl⟩ := BinaryOp.lower_cases hc
    exact .ofBinary op' ha hb
  call a method as b ha has hb := by
    obtain ⟨argument, rfl, hcall⟩ := Model.lowerCall_cases hb
    have hboth : ∀ e ∈ [a, argument], e.Inferred := by
      rintro e (_ | ⟨_, he⟩)
      · exact ha
      · exact has e he
    rcases hcall with ⟨_, rfl⟩ | ⟨_, rfl⟩
    · exact .ofCall "BEGINS_WITH" hboth
    · exact .ofCall "CONTAINS" hboth
  row _ _ := trivial
  bound path a ha := hvalues _ (Projection.mem_of_get? (Shape.valueAt_cases ha).1)

/-! ## 5. The invariant -/

/-- A grounded query whose condition and projected values are derived from their parts. -/
structure Query.Inferring (model : Model) (root : Entity) (q : Query) : Prop where
  grounded : q.Grounded model root
  condition : ∀ e, q.shape.filter = some e → e.Inferred
  values : ∀ entry ∈ q.shape.projection, entry.2.Inferred

namespace Query.Inferring

variable {model : Model} {root : Entity} {q : Query}

theorem start {entity : String} (h : model.find? entity = some root) :
    (Query.of root).Inferring model root where
  grounded := .start h
  condition := fun _ he => by cases he
  values := fun _ hentry => absurd hentry List.not_mem_nil

/-- What a lambda stands for on the rows of the query. -/
theorem every_lambda (h : q.Inferring model root) (l : Lambda) :
    (l.content (model.context.reading q.shape) (q.content model.context)).Every Expr.Inferred
      (fun _ => True) fun _ => True :=
  Query.every_lambda (model.keeps_inferred h.values) l

theorem filtered (h : q.Inferring model root) {l : Lambda} {e : Expr}
    (he : model.context.condition? l q = some e) {memo : Memo} (hm : memo.Faithful root) :
    (q.filtered e memo).Inferring model root where
  grounded := h.grounded.filtered e hm
  condition := filtered_keeps (fun _ _ => .ofBinary .and) h.condition
    ((h.every_lambda l).of_value? he)
  values := by
    rw [filtered_projection]
    exact h.values

theorem projected (h : q.Inferring model root) {l : Lambda} {b : Bound Term}
    (hb : model.context.projected? l q = some b) {memo : Memo} (hm : memo.Faithful root) :
    (q.projected b memo).Inferring model root where
  grounded := h.grounded.projected hb hm
  condition := h.condition
  values := by
    intro entry hentry
    rcases (Content.binds_of_bound _ hb).entry_cases (fun _ _ _ => trivial) (h.every_lambda l) entry
      (Projection.mem_ofList hentry) with hinferred | ⟨_, ref, he, _⟩
    · exact hinferred
    · rw [he]
      exact .row ref

/-- **One operator keeps the invariant**, whether it succeeds or fails. -/
theorem apply (h : q.Inferring model root) (op : Operator) :
    (model.context.apply op q).2.Inferring model root := by
  rcases Context.apply_cases h.grounded op with
    ⟨_, heq⟩ | ⟨l, e, memo, _, he, hm, heq⟩ | ⟨l, b, memo, _, hb, hm, heq⟩
  · rw [heq]
    exact h
  · rw [heq]
    exact h.filtered he hm
  · rw [heq]
    exact h.projected hb hm

end Query.Inferring

/-! ## 6. Chains -/

namespace Model

/-- **Types and mappings are derived, never invented**: in the condition and in every projected
    value of the query of a chain, whatever its lambdas. -/
theorem types_and_mappings_are_derived (model : Model) {chain : Chain} {q : Query}
    (h : model.context.run chain = .ok q) :
    (∀ e, q.shape.filter = some e → e.Inferred) ∧
      ∀ path e, (path, e) ∈ q.shape.projection → e.Inferred := by
  obtain ⟨entity, ops, start, rfl, hstart, hpass⟩ :=
    Context.passes_cases (Context.mem_passes_of_run h)
  obtain ⟨root, hroot, rfl⟩ := source_cases hstart
  have hq : q.Inferring model root :=
    Context.passesFrom_invariant (fun _ op h => h.apply op) (.start hroot) hpass
  exact ⟨hq.condition, fun path e hentry => hq.values _ hentry⟩

/-- A comparison that is projected beside a number and then compared itself. -/
def comparedAgain : String :=
  "Person.Where(p => 18 < p.Age).Select(p => new \x7b Old = p.Age > 65, Five = 5 \x7d)" ++
    ".Where(x => x.Old == true)"

/-- A number that nothing is compared with has no mapping, and what is compared with a comparison
    has the mapping of its left side. -/
theorem types_and_mappings_are_derived_of_comparedAgain :
    ∃ chain q e, Chain.parse comparedAgain = .ok chain ∧ members.context.run chain = .ok q ∧
      q.shape.filter = some e ∧
      e.constants = [(.int32 18, some (.of .int32)), (.int32 65, some (.of .int32)),
        (.bool true, some (.of .int32))] ∧
      q.shape.projection.map (fun entry => entry.2.constants) =
        [[(.int32 65, some (.of .int32))], [(.int32 5, none)]] ∧
      e.Inferred ∧ ∀ path d, (path, d) ∈ q.shape.projection → d.Inferred := by
  have hconstants : ((Chain.parse comparedAgain).toOption.bind fun chain =>
      (members.context.run chain).toOption.map fun q => (q.shape.filter.map Expr.constants,
        q.shape.projection.map fun entry => entry.2.constants)) =
      some (some [(.int32 18, some (.of .int32)), (.int32 65, some (.of .int32)),
        (.bool true, some (.of .int32))],
        [[(.int32 65, some (.of .int32))], [(.int32 5, none)]]) := by
    decide +kernel
  obtain ⟨chain, hparse, hconstants⟩ := exists_ok_of_toOption_bind hconstants
  rw [Option.map_eq_bind] at hconstants
  obtain ⟨q, hrun, hconstants⟩ := exists_ok_of_toOption_bind hconstants
  obtain ⟨hcondition, hvalues⟩ := Prod.mk.inj (Option.some.inj hconstants)
  obtain ⟨e, he, hcondition⟩ := Option.map_eq_some_iff.mp hcondition
  obtain ⟨hfilter, hprojection⟩ := types_and_mappings_are_derived members hrun
  exact ⟨chain, q, e, hparse, hrun, he, hcondition, hvalues, hfilter e he, hprojection⟩

end Model

end EntityQuery
