import EntityQuery.Proofs.Parsed
import EntityQuery.Proofs.Rendering

/-!
Every chain that a text says is well formed.

* `Term.isSaid` -- the test that a node of a term is one that a text can say;
* `Term.isResolved` -- the test that a call on a name is one on the parameter of the lambda, and a
  call on a type one on another name;
* `Operator.lambdas`, `Operator.terms`, `Operator.chains` -- what an operator holds;
* `Chain.Holds` -- a chain and all chains inside it;
* `Chain.Proper` -- the invariant: one source, at the front, and nothing in lambdas and terms but
  what a text can say;
* `Chain.Written.proper`, `Chain.Holds.written` -- chains of the grammar have it, and so do those
  inside them;
* `Chain.parsed_chains_are_proper` -- **so does every chain that a text says, and it never fails for
  want of a source**.
-/
namespace EntityQuery

/-! ## 1. Terms -/

/-- An operator that stands before an operand in a text. -/
def UnaryOp.isSaid : UnaryOp → Bool
  | .not => true
  | .negate => true
  | .plus => true
  | .convert _ => true
  | _ => false

namespace Term

/-- A node that a text can say: literals have their own types and are never the least integer, a
    missing value may be anything, a minus sign before a number is part of it, and no object is
    without members. -/
def isSaid : Term → Bool
  | .constant (some v) type => type = v.type && v.isSpoken
  | .constant none type => type = .object
  | .unary op operand => op.isSaid && !(op = .negate && operand.isNumber)
  | .object members => !members.isEmpty
  | .conditional _ _ _ => false
  | .lambda _ _ => false
  | .entity _ _ => false
  | .binding _ => false
  | _ => true

/-- A call on a name is on the parameter, and a call on a type has one, which is named otherwise. -/
def isResolved (param : String) : Term → Bool
  | .call (.parameter name) _ _ => name = param
  | .ownerCall method _ => method.owner.any fun owner => owner ≠ param
  | _ => true

/-- Of the literals that a text can say, all numbers have a negative. -/
theorem isNumber_of_neg?_eq_none {v : Literal} (hv : v.isSpoken = true) (h : v.neg? = none) :
    v.isNumber = false := by
  cases v with
  | int32 n =>
    have hn : n ≠ Int32.minValue := of_decide_eq_true hv
    simp [Literal.neg?, hn] at h
  | int64 n =>
    have hn : n ≠ Int64.minValue := of_decide_eq_true hv
    simp [Literal.neg?, hn] at h
  | double x => cases h
  | decimal d => cases h
  | _ => rfl

/-- The literals of a written term are ones that a text can say. -/
theorem Written.isSpoken {v : Literal} {type : ValueType} (h : Written (.constant (some v) type)) :
    v.isSpoken = true := by
  generalize ht : Term.constant (some v) type = t at h
  cases h with
  | literal h =>
    cases ht
    exact h
  | _ => cases ht

theorem Written.isNumber_eq_false {t : Term} (h : t.Written)
    (hn : ∀ v type, t = .constant (some v) type → v.neg? = none) : t.isNumber = false := by
  unfold isNumber
  split
  · rename_i v type
    exact isNumber_of_neg?_eq_none h.isSpoken (hn v type rfl)
  · rfl

/-- **Every node of a written term is one that a text can say.** -/
theorem Written.every_isSaid {t : Term} (h : t.Written) : t.every isSaid = true := by
  induction h with
  | literal h => simp [ofLiteral, every, isSaid, h]
  | null => rfl
  | parameter _ => rfl
  | member _ _ ih => simpa [every, isSaid] using ih
  | call _ _ _ ihr iha => simpa [every, isSaid, everyIn_iff, ihr] using iha
  | object hne _ ih => simpa [every, isSaid, everyMember_iff, hne] using ih
  | binary _ _ _ ihl ihr => simp [every, isSaid, ihl, ihr]
  | not _ ih => simp [every, isSaid, UnaryOp.isSaid, ih]
  | negate h hn ih => simp [every, isSaid, UnaryOp.isSaid, ih, h.isNumber_eq_false hn]
  | plus _ ih => simp [every, isSaid, UnaryOp.isSaid, ih]
  | convert _ _ ih => simp [every, isSaid, UnaryOp.isSaid, ih]

theorem isNumber_withOwners (param : String) (t : Term) :
    (t.withOwners param).isNumber = t.isNumber := by
  cases t with
  | call receiver method arguments =>
    cases receiver with
    | parameter name =>
      rw [withOwners]
      split <;> rfl
    | _ => rfl
  | _ => rfl

theorem isSaid_withOwners (param : String) {t : Term} (h : t.isSaid = true) :
    (t.withOwners param).isSaid = true := by
  cases t with
  | call receiver method arguments =>
    cases receiver with
    | parameter name =>
      rw [withOwners]
      split <;> rfl
    | _ => rfl
  | unary op operand =>
    rw [withOwners, isSaid, isNumber_withOwners]
    exact h
  | object members =>
    rw [withOwners, withOwnersIn_eq_map, isSaid, List.isEmpty_map]
    exact h
  | constant value type => exact h
  | conditional _ _ _ | lambda _ _ | entity _ _ | binding _ => cases h
  | _ => rfl

/-- A call that becomes one on a type is not a parameter. -/
theorem withOwners_ne_parameter {param : String} {t : Term} (h : ∀ name, t ≠ .parameter name)
    (name : String) : t.withOwners param ≠ .parameter name := by
  cases t with
  | call receiver method arguments =>
    cases receiver with
    | parameter name =>
      rw [withOwners]
      split <;> simp
    | _ => simp [withOwners]
  | parameter other => exact absurd rfl (h other)
  | _ => simp [withOwners]

theorem isResolved_call_of_ne {param : String} {receiver : Term}
    (h : ∀ name, receiver ≠ .parameter name) (method : Method) (arguments : List Term) :
    isResolved param (.call receiver method arguments) = true := by
  cases receiver with
  | parameter name => exact absurd rfl (h name)
  | _ => rfl

/-- **Calls on other names than the parameter become calls on types**, and no others do. -/
theorem Written.every_isResolved {t : Term} (h : t.Written) (param : String) :
    (t.withOwners param).every (isResolved param) = true := by
  induction h with
  | literal _ => rfl
  | null => rfl
  | parameter _ => rfl
  | member _ _ ih => simpa [withOwners, every, isResolved] using ih
  | @call receiver arguments _ label _ ihr iha =>
    have hargs : everyIn (isResolved param) (arguments.map (withOwners param)) = true :=
      everyIn_iff.mpr (List.forall_mem_map.mpr iha)
    by_cases hname : ∃ name, receiver = .parameter name
    · obtain ⟨name, rfl⟩ := hname
      rw [withOwners, withOwnersAll_eq_map]
      split
      · rename_i hparam
        simp [every, isResolved, hparam, hargs]
      · rename_i hparam
        simp [every, isResolved, hparam, hargs]
    · have hreceiver : ∀ name, receiver ≠ .parameter name := fun name heq => hname ⟨name, heq⟩
      have hbare : ∀ name, receiver.withOwners param ≠ .parameter name :=
        withOwners_ne_parameter hreceiver
      rw [withOwners_call_of_ne hreceiver]
      simp [every, isResolved_call_of_ne hbare, ihr, hargs]
  | @object members _ _ ih =>
    have hmembers : ∀ m ∈ members.map fun m => (m.1, withOwners param m.2),
        m.2.every (isResolved param) = true := List.forall_mem_map.mpr ih
    simp only [withOwners, withOwnersIn_eq_map, every, isResolved, Bool.true_and, everyMember_iff]
    exact hmembers
  | binary _ _ _ ihl ihr => simp [withOwners, every, isResolved, ihl, ihr]
  | not _ ih => simpa [withOwners, every, isResolved] using ih
  | negate _ _ ih => simpa [withOwners, every, isResolved] using ih
  | plus _ ih => simpa [withOwners, every, isResolved] using ih
  | convert _ _ ih => simpa [withOwners, every, isResolved] using ih

/-- Calls that are resolved stay as they are. -/
theorem withOwners_of_isResolved {param : String} {t : Term}
    (h : t.every (isResolved param) = true) : t.withOwners param = t := by
  induction t with
  | constant _ _ | parameter _ | lambda _ _ _ | entity _ _ | binding _ => rfl
  | member target label ih =>
    simp only [every, Bool.and_eq_true] at h
    rw [withOwners, ih h.2]
  | unary op operand ih =>
    simp only [every, Bool.and_eq_true] at h
    rw [withOwners, ih h.2]
  | binary op left right ihleft ihright =>
    simp only [every, Bool.and_eq_true] at h
    rw [withOwners, ihleft h.1.2, ihright h.2]
  | call receiver method arguments ihreceiver ihargs =>
    simp only [every, Bool.and_eq_true, everyIn_iff] at h
    have hargs : arguments.map (withOwners param) = arguments :=
      List.map_eq_self_of_forall fun t ht => ihargs t ht (h.2 t ht)
    by_cases hname : ∃ name, receiver = .parameter name
    · obtain ⟨name, rfl⟩ := hname
      have hparam : name = param := of_decide_eq_true h.1.1
      rw [withOwners, withOwnersAll_eq_map, if_pos hparam, hargs]
    · have hbare : ∀ name, receiver ≠ .parameter name := fun name heq => hname ⟨name, heq⟩
      rw [withOwners_call_of_ne hbare, ihreceiver h.1.2, hargs]
  | ownerCall method arguments ihargs =>
    simp only [every, Bool.and_eq_true, everyIn_iff] at h
    rw [withOwners, withOwnersAll_eq_map,
      List.map_eq_self_of_forall fun t ht => ihargs t ht (h.2 t ht)]
  | object members ih =>
    simp only [every, Bool.and_eq_true, everyMember_iff] at h
    have hmembers : members.map (fun m => (m.1, m.2.withOwners param)) = members := by
      refine List.map_eq_self_of_forall fun m hm => ?_
      rw [ih m hm (h.2 m hm)]
    rw [withOwners, withOwnersIn_eq_map, hmembers]
  | conditional test whenTrue whenFalse ihtest ihtrue ihfalse =>
    simp only [every, Bool.and_eq_true] at h
    rw [withOwners, ihtest h.1.1.2, ihtrue h.1.2, ihfalse h.2]

end Term

/-- The body of a lambda that is written has nothing in it but what a text can say, and its calls
    are told apart by the parameter. -/
theorem Lambda.Written.body {l : Lambda} (h : l.Written) :
    l.body.every Term.isSaid = true ∧ l.body.every (Term.isResolved l.parameter) = true := by
  obtain ⟨body, hbody, heq⟩ := h
  have hsaid : ∀ t : Term, t.isSaid = true → (t.withOwners l.parameter).isSaid = true :=
    fun _ => Term.isSaid_withOwners l.parameter
  rw [heq]
  exact ⟨Term.every_withOwners hsaid hbody.every_isSaid, hbody.every_isResolved l.parameter⟩

/-! ## 2. Operators and chains -/

namespace Operator

/-- The operator that a chain starts with. -/
def isSource : Operator → Bool
  | .source _ => true
  | _ => false

/-- The lambdas of an operator. -/
def lambdas : Operator → List Lambda
  | .filter l => [l]
  | .project l => [l]
  | .order _ l _ => [l]
  | .overRows _ l => [l]
  | .aggregate _ l => l.toList
  | .pick _ l _ => l.toList
  | .join _ _ outerKey innerKey result => [outerKey, innerKey, result]
  | _ => []

/-- The terms of an operator outside lambdas. -/
def terms : Operator → List Term
  | .elementAt t _ => [t]
  | .withTerm _ t => [t]
  | .defaultIfEmpty t => t.toList
  | _ => []

/-- The chains that an operator takes its other rows from. -/
def chains : Operator → List Chain
  | .combine _ other => [other]
  | .join _ inner _ _ _ => [inner]
  | _ => []

variable {op : Operator}

theorem Written.isSource_eq_false (h : op.Written) : op.isSource = false := by
  cases h <;> rfl

theorem Written.lambda (h : op.Written) {l : Lambda} (hl : l ∈ op.lambdas) : l.Written := by
  cases h with
  | filter h | project h | order _ h _ | overRows _ h => exact List.mem_singleton.mp hl ▸ h
  | aggregate _ h | pick _ h _ => exact h l (Option.mem_toList.mp hl)
  | join _ _ _ ho hi hr =>
    simp only [lambdas, List.mem_cons, List.not_mem_nil, or_false] at hl
    rcases hl with rfl | rfl | rfl
    · exact ho
    · exact hi
    · exact hr
  | _ => exact absurd hl List.not_mem_nil

theorem Written.term (h : op.Written) {t : Term} (ht : t ∈ op.terms) : t.Written := by
  cases h with
  | elementAt h _ | withTerm _ h => exact List.mem_singleton.mp ht ▸ h
  | defaultIfEmpty h => exact h t (Option.mem_toList.mp ht)
  | _ => exact absurd ht List.not_mem_nil

theorem Written.chain (h : op.Written) {c : Chain} (hc : c ∈ op.chains) : c.Written := by
  cases h with
  | combine _ entity h => exact List.mem_singleton.mp hc ▸ ⟨entity, _, rfl, h⟩
  | join _ entity h _ _ _ => exact List.mem_singleton.mp hc ▸ ⟨entity, _, rfl, h⟩
  | _ => exact absurd hc List.not_mem_nil

end Operator

namespace Chain

/-- A chain, and every chain that an operator in it holds. -/
inductive Holds (chain : Chain) : Chain → Prop where
  | self : Holds chain chain
  | nested {c : Chain} {op : Operator} {d : Chain} (h : Holds chain c) (hop : op ∈ c)
      (hd : d ∈ op.chains) : Holds chain d

/-- A chain starts with its only source, and has nothing in its lambdas and terms but what a text
    can say; in its lambdas, calls are told apart by the parameter. -/
structure Proper (chain : Chain) : Prop where
  source : ∃ entity ops, chain = .source entity :: ops ∧ ∀ op ∈ ops, op.isSource = false
  lambdas : ∀ op ∈ chain, ∀ l ∈ op.lambdas,
    l.body.every Term.isSaid = true ∧ l.body.every (Term.isResolved l.parameter) = true
  terms : ∀ op ∈ chain, ∀ t ∈ op.terms, t.every Term.isSaid = true

/-- An operator of a chain of the grammar is its source or one of the grammar. -/
theorem Written.cases_of_mem {chain : Chain} (h : chain.Written) {op : Operator} (hop : op ∈ chain) :
    (∃ entity, op = .source entity) ∨ op.Written := by
  obtain ⟨entity, ops, rfl, hops⟩ := h
  rcases List.mem_cons.mp hop with rfl | hop
  · exact Or.inl ⟨entity, rfl⟩
  · exact Or.inr (hops op hop)

/-- **Chains of the grammar are proper.** -/
theorem Written.proper {chain : Chain} (h : chain.Written) : chain.Proper where
  source := by
    obtain ⟨entity, ops, rfl, hops⟩ := h
    exact ⟨entity, ops, rfl, fun op hop => (hops op hop).isSource_eq_false⟩
  lambdas := by
    intro op hop l hl
    rcases h.cases_of_mem hop with ⟨entity, rfl⟩ | hwritten
    · exact absurd hl List.not_mem_nil
    · exact (hwritten.lambda hl).body
  terms := by
    intro op hop t ht
    rcases h.cases_of_mem hop with ⟨entity, rfl⟩ | hwritten
    · exact absurd ht List.not_mem_nil
    · exact (hwritten.term ht).every_isSaid

/-- **The chains inside a chain of the grammar are of the grammar.** -/
theorem Holds.written {chain c : Chain} (hc : chain.Holds c) (h : chain.Written) : c.Written := by
  induction hc with
  | self => exact h
  | nested _ hop hd ih =>
    rcases ih.cases_of_mem hop with ⟨entity, rfl⟩ | hwritten
    · exact absurd hd List.not_mem_nil
    · exact hwritten.chain hd

end Chain

/-! ## 3. No chain without a source -/

namespace Context

variable {ctx : Context}

theorem apply_ne_invalidChain {op : Operator} (h : op.isSource = false) {q q' : Query}
    {fault : ChainFault} : ctx.apply op q ≠ (.error (.invalidChain fault), q') := by
  intro heq
  cases op with
  | source entity => cases h
  | filter l =>
    have hfilter : ctx.filter l q = (.error (.invalidChain fault), q') := heq
    unfold filter at hfilter
    split at hfilter <;> cases hfilter
  | project l =>
    have hproject : ctx.project l q = (.error (.invalidChain fault), q') := heq
    unfold project at hproject
    split at hproject
    · cases hproject
    · rename_i bound _ _
      cases bound <;> cases hproject
  | _ => cases heq

theorem applyAll_ne_invalidChain {ops : List Operator} (h : ∀ op ∈ ops, op.isSource = false)
    {q q' : Query} {fault : ChainFault} :
    ctx.applyAll ops q ≠ (.error (.invalidChain fault), q') := by
  induction ops generalizing q with
  | nil => exact fun heq => by cases heq
  | cons op rest ih =>
    intro heq
    rcases hop : ctx.apply op q with ⟨outcome, after⟩
    cases outcome with
    | ok _ =>
      rw [applyAll_cons_ok hop] at heq
      exact ih (fun op' hop' => h op' (List.mem_cons_of_mem op hop')) heq
    | error failure =>
      rw [applyAll_cons_error hop] at heq
      cases heq
      exact apply_ne_invalidChain (h op List.mem_cons_self) hop

/-- A chain with its only source at the front never fails for want of it. -/
theorem run_ne_invalidChain {chain : Chain} (h : chain.Proper) (fault : ChainFault) :
    ctx.run chain ≠ .error (.invalidChain fault) := by
  obtain ⟨entity, ops, rfl, hops⟩ := h.source
  intro heq
  cases hs : ctx.source entity with
  | error failure =>
    rw [run_of_source_error hs] at heq
    have hget : (ctx.model.get entity >>= fun e => Except.ok (Query.of e)) = .error failure := hs
    unfold Model.get at hget
    split at hget
    · cases hget
    · cases hget
      cases heq
  | ok start =>
    rcases happly : ctx.applyAll ops start with ⟨outcome, q⟩
    cases outcome with
    | ok _ =>
      rw [run_of_applyAll hs happly] at heq
      cases heq
    | error failure =>
      rw [run_of_applyAll_error hs happly] at heq
      cases heq
      exact applyAll_ne_invalidChain hops happly

end Context

/-! ## 4. Texts -/

namespace Chain

/-- **Every chain that a text says is well formed**, and so are all chains inside it: one source, at
    the front; nothing in lambdas and terms but what a text can say, so no minus sign before a
    number and no least integer; and calls told apart by the parameter of their lambda. So no such
    chain fails for want of a source, whatever the model and the rules for calls. -/
theorem parsed_chains_are_proper {text : String} {chain : Chain}
    (h : Chain.parse text = .ok chain) :
    (∀ c, chain.Holds c → c.Proper) ∧
      ∀ (ctx : Context) (fault : ChainFault), ctx.run chain ≠ .error (.invalidChain fault) := by
  have hwritten := written_of_parse h
  exact ⟨fun c hc => (hc.written hwritten).proper, fun ctx fault =>
    ctx.run_ne_invalidChain hwritten.proper fault⟩

/-- Signs before numbers and before other things, calls on types and on the parameter, and a chain
    in another. -/
def manySigns : String :=
  "Person.Where(p => Math.Abs(- -2147483648) > -(-p.Age)).Union(Order.Where(o => (-5).F(Math.G(o)) == null))"

theorem parsed_chains_are_proper_of_manySigns :
    ∃ chain, Chain.parse manySigns = .ok chain ∧
      chain.text = "Person.Where(p => (Math.Abs(2147483648L) > --p.Age))" ++
        ".Union(Order.Where(o => (-5.F(Math.G(o)) == null)))" ∧
      (∀ c, chain.Holds c → c.Proper) ∧
      ∀ (ctx : Context) (fault : ChainFault), ctx.run chain ≠ .error (.invalidChain fault) := by
  have hread : (Chain.parse manySigns).toOption.bind (fun chain => some chain.text) =
      some ("Person.Where(p => (Math.Abs(2147483648L) > --p.Age))" ++
        ".Union(Order.Where(o => (-5.F(Math.G(o)) == null)))") := by decide +kernel
  obtain ⟨chain, hparse, htext⟩ := exists_ok_of_toOption_bind hread
  exact ⟨chain, hparse, Option.some.inj htext, parsed_chains_are_proper hparse⟩

end Chain

end EntityQuery
