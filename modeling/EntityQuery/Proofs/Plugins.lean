import EntityQuery.Proofs.Lockstep

/-!
Calls with plugins.

A plugin brings rules for calls, and rules are asked before the one for texts. A rule that answers
where the rule for texts would have answered may change all that follows, since later calls and
comparisons go by the type and the mapping of the answer. Plugins without such a rule only add
answers to calls that had none, and a chain with such a call has failed before.

* `CallRule.Answered` -- whose answer counts, said plugin by plugin;
* `CallRule.answered_iff` -- it is the one that is found among all the rules in a row;
* `Model.contextWith` -- the context of a model with plugins;
* `CallRule.Apart` -- plugins that leave the methods of texts alone;
* `CallRule.Apart.agrees` -- **they add answers only where there was none**;
* `Context.lower_call` -- what becomes of a call whose receiver and arguments have expressions;
* `Model.plugins_extend_conservatively` -- both for whole chains and for every call.
-/
namespace EntityQuery

namespace CallRule

/-! ## 1. Whose answer counts -/

/-- The answer to a call with plugins. Of the first plugin with a rule that answers, it is that of
    the first such rule; and it is that of the rule for texts if no plugin has one. -/
inductive Answered (ask : CallRule → Option Expr) : List (List CallRule) → Option Expr → Prop
  | builtIn : Answered ask [] (ask strings)
  | silent {plugin : List CallRule} {plugins : List (List CallRule)} {answer : Option Expr}
      (hplugin : ∀ rule ∈ plugin, ask rule = none) (hrest : Answered ask plugins answer) :
      Answered ask (plugin :: plugins) answer
  | rule {earlier later : List CallRule} {rule : CallRule} {plugins : List (List CallRule)} {e : Expr}
      (hearlier : ∀ other ∈ earlier, ask other = none) (hrule : ask rule = some e) :
      Answered ask ((earlier ++ rule :: later) :: plugins) (some e)

variable {ask : CallRule → Option Expr} {plugins : List (List CallRule)}

theorem Answered.findSome?_eq {answer : Option Expr} (h : Answered ask plugins answer) :
    (extended plugins.flatten).findSome? ask = answer := by
  unfold extended
  induction h with
  | builtIn => simp
  | silent hplugin _ ih =>
    rw [List.flatten_cons, List.append_assoc, List.findSome?_append,
      List.findSome?_eq_none_iff.mpr hplugin, Option.none_or]
    exact ih
  | rule hearlier hrule =>
    rw [List.flatten_cons, List.append_assoc, List.append_assoc, List.findSome?_append,
      List.findSome?_eq_none_iff.mpr hearlier, Option.none_or, List.cons_append,
      List.findSome?_cons, hrule]

theorem answered_findSome? (ask : CallRule → Option Expr) (plugins : List (List CallRule)) :
    Answered ask plugins ((extended plugins.flatten).findSome? ask) := by
  unfold extended
  induction plugins with
  | nil =>
    have hstrings : ([] ++ [strings]).findSome? ask = ask strings := by simp
    rw [List.flatten_nil, hstrings]
    exact .builtIn
  | cons plugin plugins ih =>
    rw [List.flatten_cons, List.append_assoc, List.findSome?_append]
    cases hplugin : plugin.findSome? ask with
    | none => exact .silent (List.findSome?_eq_none_iff.mp hplugin) ih
    | some e =>
      obtain ⟨earlier, rule, later, rfl, hrule, hearlier⟩ := List.findSome?_eq_some_iff.mp hplugin
      exact .rule hearlier hrule

/-- **The answer that counts is the first one among all the rules in a row.** -/
theorem answered_iff {answer : Option Expr} :
    Answered ask plugins answer ↔ answer = (extended plugins.flatten).findSome? ask := by
  constructor
  · intro h
    exact h.findSome?_eq.symm
  · rintro rfl
    exact answered_findSome? ask plugins

theorem Answered.of_silent (h : ∀ plugin ∈ plugins, ∀ rule ∈ plugin, ask rule = none) :
    Answered ask plugins (ask strings) := by
  induction plugins with
  | nil => exact .builtIn
  | cons plugin plugins ih =>
    obtain ⟨hplugin, hrest⟩ := List.forall_mem_cons.mp h
    exact .silent hplugin (ih hrest)

end CallRule

/-! ## 2. Contexts with plugins -/

/-- The model with plugins in the order in which they are registered. -/
def Model.contextWith (model : Model) (plugins : List (List CallRule)) : Context :=
  { model := model, rules := CallRule.extended plugins.flatten }

/-- What becomes of a call by the answer to it. -/
theorem CallRule.Answered.lowerCall_eq {model : Model} {plugins : List (List CallRule)}
    {receiver : Expr} {method : Method} {arguments : List Expr} {answer : Option Expr}
    (h : Answered (fun rule => rule model receiver method arguments) plugins answer) :
    (model.contextWith plugins).lowerCall receiver method arguments =
      answer.elim (.error (.unknownCall method receiver.type)) .ok := by
  have hfirst : first (model.contextWith plugins).rules (model.contextWith plugins).model receiver
      method arguments = answer := h.findSome?_eq
  unfold Context.lowerCall
  rw [hfirst]
  cases answer <;> rfl

/-- Without plugins the rule for texts is alone. -/
theorem Model.lowerCall_context (model : Model) (receiver : Expr) (method : Method)
    (arguments : List Expr) :
    model.context.lowerCall receiver method arguments =
      (CallRule.strings model receiver method arguments).elim
        (.error (.unknownCall method receiver.type)) .ok := by
  have hbuiltIn : CallRule.Answered (fun rule => rule model receiver method arguments) []
      (CallRule.strings model receiver method arguments) := .builtIn
  exact hbuiltIn.lowerCall_eq

/-- A call whose receiver and arguments have expressions becomes what the rules make of it. -/
theorem Context.lower_call {ctx : Context} {shape : Shape} {receiver : Term} {method : Method}
    {arguments : List Term} {memo memo₁ memo₂ : Memo} {r : Expr} {as : List Expr}
    (hr : ctx.lower shape receiver memo = (.ok r, memo₁))
    (has : ctx.lowerAll shape arguments memo₁ = (.ok as, memo₂)) :
    ctx.lower shape (.call receiver method arguments) memo = (ctx.lowerCall r method as, memo₂) := by
  rw [lower, Using.bind_of_ok hr, Using.bind_of_ok has]
  rfl

/-! ## 3. Plugins that leave the methods of texts alone -/

/-- No rule of the plugins answers a call that the rule for texts answers. -/
def CallRule.Apart (model : Model) (plugins : List (List CallRule)) : Prop :=
  ∀ plugin ∈ plugins, ∀ rule ∈ plugin, ∀ receiver method arguments,
    (strings model receiver method arguments).isSome = true →
      rule model receiver method arguments = none

/-- A call that no rule answers. -/
def Obstacle.IsUnknownCall : Obstacle → Prop
  | .unknownCall _ _ => True
  | _ => False

/-- **Such plugins add answers only where there was none.** -/
theorem CallRule.Apart.agrees {model : Model} {plugins : List (List CallRule)}
    (h : Apart model plugins) :
    Context.Agrees Obstacle.IsUnknownCall model.context (model.contextWith plugins) where
  source _ := rfl
  rowProperty _ _ _ _ := rfl
  lowerCall receiver method arguments := by
    rw [model.lowerCall_context]
    cases hstrings : strings model receiver method arguments with
    | none => exact .inr ⟨.unknownCall method receiver.type, rfl, trivial⟩
    | some e =>
      -- every rule of the plugins is silent here, so the answer of the one for texts counts
      left
      rw [← hstrings]
      refine Answered.lowerCall_eq (.of_silent fun plugin hplugin rule hrule => ?_)
      exact h plugin hplugin rule hrule receiver method arguments (by rw [hstrings]; rfl)

/-- Functions for other methods leave the methods of texts alone. -/
theorem FunctionRule.apart (model : Model) {plugins : List (List FunctionRule)}
    (h : ∀ plugin ∈ plugins, ∀ r ∈ plugin, r.method ≠ "StartsWith" ∧ r.method ≠ "Contains") :
    CallRule.Apart model (plugins.map fun plugin => plugin.map rule) := by
  intro plugin hplugin rule hrule receiver method arguments hsome
  obtain ⟨functions, hfunctions, rfl⟩ := List.mem_map.mp hplugin
  obtain ⟨r, hr, rfl⟩ := List.mem_map.mp hrule
  obtain ⟨e, he⟩ := Option.isSome_iff_exists.mp hsome
  have hcall : (model.context.lowerCall receiver method arguments).toOption = some e := by
    rw [model.lowerCall_context, he]
    rfl
  obtain ⟨hstarts, hcontains⟩ := h functions hfunctions r hr
  have hname : method.name ≠ r.method := by
    obtain ⟨_, _, ⟨hm, _⟩ | ⟨hm, _⟩⟩ := Model.lowerCall_cases hcall
    · rw [hm]
      exact hstarts.symm
    · rw [hm]
      exact hcontains.symm
  simp [FunctionRule.rule, hname]

/-! ## 4. Chains -/

namespace Model

/-- **Plugins extend what can be translated and change nothing else.** If they leave the methods of
    texts alone, a chain that comes to a query comes to the same one with the plugins, and one that
    fails does so in the same way, unless a call was in its way that no rule answered. Whatever the
    plugins, every call whose receiver and arguments have expressions has one answer that counts,
    and becomes that answer; it is an obstacle if no rule has one. -/
theorem plugins_extend_conservatively (model : Model) (plugins : List (List CallRule)) :
    (CallRule.Apart model plugins → ∀ chain,
      (∀ q, model.context.run chain = .ok q → (model.contextWith plugins).run chain = .ok q) ∧
      ∀ failure, model.context.run chain = .error failure →
        (model.contextWith plugins).run chain = .error failure ∨
          ∃ l method type, failure = .blocked l (.unknownCall method type)) ∧
    ∀ shape receiver method arguments memo r memo₁ as memo₂,
      (model.contextWith plugins).lower shape receiver memo = (.ok r, memo₁) →
      (model.contextWith plugins).lowerAll shape arguments memo₁ = (.ok as, memo₂) →
      ∃ answer,
        (∀ other, CallRule.Answered (fun rule => rule model r method as) plugins other ↔
          other = answer) ∧
        (model.contextWith plugins).lower shape (.call receiver method arguments) memo =
          (answer.elim (.error (.unknownCall method r.type)) .ok, memo₂) := by
  refine ⟨fun hapart chain => ⟨fun q hrun => hapart.agrees.run_ok hrun, fun failure hfails => ?_⟩,
    fun shape receiver method arguments memo r memo₁ as memo₂ hr has => ?_⟩
  · rcases hapart.agrees.run chain with heq | ⟨failure', hfails', hexcused⟩
    · exact .inl (heq.trans hfails)
    · right
      cases hfails.symm.trans hfails'
      match failure, hexcused with
      | .blocked l (.unknownCall method type), _ => exact ⟨l, method, type, rfl⟩
  · have hanswered := CallRule.answered_findSome? (fun rule => rule model r method as) plugins
    refine ⟨_, fun _ => CallRule.answered_iff, ?_⟩
    rw [Context.lower_call hr has, hanswered.lowerCall_eq]

/-- Two plugins, each with a function for the same method. -/
def endings : List (List FunctionRule) :=
  [[{ method := "EndsWith", function := "ENDS_WITH", returns := .bool }],
    [{ method := "EndsWith", function := "FINISHES", returns := .bool }]]

/-- The rules of the two plugins. -/
def endingRules : List (List CallRule) := endings.map fun plugin => plugin.map FunctionRule.rule

/-- The name on the row of a person. -/
def nameOfRow : Term := .member (.entity "Person" .root) "Name"

/-- A chain with a method of texts comes to the same with the two plugins; and a call that both of
    them know becomes what the first of them makes of it. -/
theorem plugins_extend_conservatively_of_endings :
    (∃ chain q, Chain.parse "Person.Where(p => p.Name.StartsWith('A'))" = .ok chain ∧
      people.context.run chain = .ok q ∧ (people.contextWith endingRules).run chain = .ok q) ∧
    ∃ name memo, name.text = "\"Person\".Name" ∧
      (people.contextWith endingRules).lower (.of .person)
          (.call nameOfRow ⟨none, "EndsWith"⟩ [.constant (some (.char 'A')) .char]) [] =
        (.ok (.ofCall "ENDS_WITH" [name, .ofLiteral (.char 'A') none] .bool), memo) := by
  have hapart : CallRule.Apart people endingRules := by
    refine FunctionRule.apart people ?_
    simp [endings]
  obtain ⟨hchains, hcalls⟩ := plugins_extend_conservatively people endingRules
  constructor
  · have hruns : ((Chain.parse "Person.Where(p => p.Name.StartsWith('A'))").toOption.bind fun chain =>
        (people.context.run chain).toOption.bind fun _ => some true) = some true := by
      decide +kernel
    obtain ⟨chain, hparse, hruns⟩ := exists_ok_of_toOption_bind hruns
    obtain ⟨q, hrun, _⟩ := exists_ok_of_toOption_bind hruns
    exact ⟨chain, q, hparse, hrun, (hchains hapart chain).1 q hrun⟩
  · have hname : (((people.contextWith endingRules).lower (.of .person) nameOfRow []).1.toOption.bind
        fun e => some e.text) = some "\"Person\".Name" := by
      decide +kernel
    obtain ⟨name, hname, htext⟩ := exists_ok_of_toOption_bind hname
    rcases hlower : (people.contextWith endingRules).lower (.of .person) nameOfRow [] with ⟨_, memo⟩
    rw [hlower] at hname
    cases hname
    have hargument : (people.contextWith endingRules).lowerAll (.of .person)
        [.constant (some (.char 'A')) .char] memo = (.ok [.ofLiteral (.char 'A') none], memo) := by
      rw [Context.lowerAll, Context.lower, Context.lowerAll]
      rfl
    obtain ⟨answer, hcounts, hcall⟩ := hcalls _ _ ⟨none, "EndsWith"⟩ _ _ _ _ _ _ hlower hargument
    have hfirst : some (.ofCall "ENDS_WITH" [name, .ofLiteral (.char 'A') none] .bool) = answer :=
      (hcounts _).mp (.rule (fun _ hother => absurd hother List.not_mem_nil) rfl)
    subst hfirst
    exact ⟨name, memo, Option.some.inj htext, hcall⟩

end Model

end EntityQuery
