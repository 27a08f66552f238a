import EntityQuery.Proofs.Diagnostics.Translator
import EntityQuery.Proofs.Reading.Lowering

/-!
The part of a term that fails.

* `Term.visited` -- the parts of a term in the order in which they are translated;
* `FirstFailure` -- the first of several terms that fails when they are translated one by one;
* `Repeatable` -- a computation that has come to an end may be repeated later on and changes
  nothing, so that translating the parts of a term one by one comes to the same as translating the
  term;
* `Context.translate_eq_none_iff` -- **a term fails with the first of its parts that does**;
* `Context.translate_again` -- **that part fails again in the session that it leaves**;
* `Steady`, `Context.translate_firstFailure` -- **over the rows of one entity that part fails in the
  same way alone**: it does not matter which of the right attributes are in use.
-/
namespace EntityQuery

/-! ## 1. The order of visits -/

namespace Term

/-- The terms that are translated on the way to a term, in order: operands from left to right, the
    receiver before the arguments, and in place of a member of an object the member itself. -/
def operands : Term → List Term
  | .member target label =>
    match target.resolve with
    | .object members => (memberNamed? label members).toList
    | _ => []
  | .unary _ operand => [operand]
  | .binary _ left right => [left, right]
  | .call receiver _ arguments => receiver :: arguments
  | _ => []

theorem sizeOf_lt_of_mem_operands {t u : Term} (h : u ∈ t.operands) : sizeOf u < sizeOf t := by
  cases t with
  | member target label =>
    simp only [operands] at h
    split at h
    · rename_i members ht
      have hlt := sizeOf_selected_lt ht (Option.mem_toList.mp h)
      simp only [member.sizeOf_spec]
      omega
    · cases h
  | unary op operand =>
    obtain rfl := List.mem_singleton.mp h
    simp only [unary.sizeOf_spec]
    omega
  | binary op left right =>
    simp only [operands, List.mem_cons, List.not_mem_nil, or_false] at h
    rcases h with rfl | rfl <;> simp only [binary.sizeOf_spec] <;> omega
  | call receiver method arguments =>
    rcases List.mem_cons.mp h with rfl | h
    · simp only [call.sizeOf_spec]
      omega
    · have hlt := List.sizeOf_lt_of_mem h
      simp only [call.sizeOf_spec]
      omega
  | _ => cases h

/-- **The parts of a term in the order in which they are translated**, each after its own parts: the
    innermost come first, and the term itself comes last. -/
def visited (t : Term) : List Term := t.operands.attach.flatMap (fun u => visited u.1) ++ [t]
termination_by sizeOf t
decreasing_by exact sizeOf_lt_of_mem_operands u.2

theorem visited_eq (t : Term) : t.visited = t.operands.flatMap visited ++ [t] := by
  rw [visited]
  simp only [List.flatMap_subtype, List.unattach_attach]

end Term

/-- Of terms that are translated one by one, each on its own and in the shape that the ones before
    it leave, the first that fails, and the session after it. -/
inductive FirstFailure (ctx : Context) : List Term → Session → Term → Session → Prop where
  | here {t : Term} {s s' : Session} (h : ctx.translate t s = (none, s')) (ts : List Term) :
      FirstFailure ctx (t :: ts) s t s'
  | later {t u : Term} {ts : List Term} {e : Expr} {s s' s'' : Session}
      (h : ctx.translate t s = (some e, s')) (hrest : FirstFailure ctx ts s' u s'') :
      FirstFailure ctx (t :: ts) s u s''

namespace FirstFailure

variable {ctx : Context} {t u : Term} {ts : List Term} {s s' : Session}

theorem here_of_isNone (h : (ctx.translate t s).1.isNone = true) (ts : List Term) :
    FirstFailure ctx (t :: ts) s t (ctx.translate t s).2 :=
  .here (Prod.ext (Option.isNone_iff_eq_none.mp h) rfl) ts

theorem later_of_isSome (h : (ctx.translate t s).1.isSome = true)
    (hrest : FirstFailure ctx ts (ctx.translate t s).2 u s') : FirstFailure ctx (t :: ts) s u s' := by
  obtain ⟨e, he⟩ := Option.isSome_iff_exists.mp h
  exact .later (Prod.ext he rfl) hrest

end FirstFailure

/-! ## 2. Repetition changes nothing -/

/-- Once the computation has come to an end, it comes to the same end again and takes nothing into
    use, however many attributes have come into use since. -/
structure Repeatable {ε α : Type} (x : Using ε α) : Prop where
  grows : Grows x
  again : ∀ memo r memo' later, x memo = (r, memo') → memo' <+: later → x later = (r, later)

theorem Memo.use_of_beginning {memo later : Memo} {p : Property} {source : Source}
    (h : (memo.use p source).2 <+: later) : later.use p source = ((memo.use p source).1, later) := by
  obtain ⟨more, rfl⟩ := h
  have hget := Memo.get?_append_of_isSome (memo.get?_use p source) more
  unfold Memo.use at hget ⊢
  rw [hget]

/-- **Lowering is repeatable**: what it has taken into use is there when it comes again. -/
theorem Context.closed_repeatable (ctx : Context) (shape : Shape) :
    ctx.Closed shape fun _ _ x => Repeatable x where
  lift e := by
    refine ⟨fun memo => List.prefix_refl memo, fun memo r memo' later h _ => ?_⟩
    obtain rfl : e = r := congrArg Prod.fst h
    rfl
  use {ε entity path label property} _ := by
    refine ⟨fun memo => memo.prefix_use property _, fun memo r memo' later h hlater => ?_⟩
    obtain ⟨rfl, rfl⟩ : .ok (memo.use property shape.source).1 = r ∧
        (memo.use property shape.source).2 = memo' := ⟨congrArg Prod.fst h, congrArg Prod.snd h⟩
    show (Except.ok (Memo.use later property shape.source).1,
      (Memo.use later property shape.source).2) = _
    rw [Memo.use_of_beginning hlater]
  bind {ε α β x f} hx hf := by
    refine ⟨fun memo => ?_, fun memo r memo' later h hlater => ?_⟩
    · have hgrows := hx.grows memo
      rcases hafter : x memo with ⟨first, memo₁⟩
      rw [hafter] at hgrows
      cases first with
      | error e =>
        rw [Using.bind_of_error hafter]
        exact hgrows
      | ok a =>
        rw [Using.bind_of_ok hafter]
        exact hgrows.trans ((hf memo a memo₁ hafter).grows memo₁)
    · rcases hafter : x memo with ⟨first, memo₁⟩
      cases first with
      | error e =>
        rw [Using.bind_of_error hafter] at h
        cases h
        exact Using.bind_of_error (hx.again memo _ _ later hafter hlater) f
      | ok a =>
        rw [Using.bind_of_ok hafter] at h
        have hfa := hf memo a memo₁ hafter
        have hbetween : memo₁ <+: memo' := by
          have hgrows := hfa.grows memo₁
          rwa [h] at hgrows
        rw [Using.bind_of_ok (hx.again memo _ memo₁ later hafter (hbetween.trans hlater))]
        exact hfa.again memo₁ r memo' later h hlater

theorem Repeatable.twice {ε α β : Type} {x : Using ε α} (h : Repeatable x) (f : α → Using ε β) :
    (x >>= fun _ => x >>= f) = x >>= f := by
  funext memo
  rcases hafter : x memo with ⟨r, memo'⟩
  cases r with
  | error e => rw [Using.bind_of_error hafter, Using.bind_of_error hafter]
  | ok a =>
    have hagain := h.again memo _ memo' memo' hafter (List.prefix_refl memo')
    rw [Using.bind_of_ok hafter, Using.bind_of_ok hafter, Using.bind_of_ok hagain]

/-! ## 3. Part by part -/

/-- A computation without its result: the attributes that it takes into use, and the obstacle. -/
def Using.effect {ε α : Type} (x : Using ε α) : Using ε Unit := x >>= fun _ => pure ()

theorem Using.bind_congr_effect {ε α α' β : Type} {x : Using ε α} {x' : Using ε α'}
    (h : x.effect = x'.effect) (y : Using ε β) : (x >>= fun _ => y) = x' >>= fun _ => y := by
  have hdrop : ∀ {γ : Type} (z : Using ε γ), (z >>= fun _ => y) = z.effect >>= fun _ => y := by
    intro γ z
    simp only [effect, bind_assoc, pure_bind]
  rw [hdrop x, hdrop x', h]

namespace Context

variable {ctx : Context} {shape : Shape}

theorem lowerAll_append (ts us : List Term) :
    ctx.lowerAll shape (ts ++ us) = (do
      let es ← ctx.lowerAll shape ts
      let fs ← ctx.lowerAll shape us
      return es ++ fs) := by
  induction ts with
  | nil =>
    rw [List.nil_append, lowerAll, pure_bind]
    simp
  | cons t ts ih =>
    rw [List.cons_append, lowerAll, lowerAll, ih]
    simp

/-- A term is lowered by lowering its operands in turn and putting their expressions together. -/
theorem exists_lower_eq (ctx : Context) (shape : Shape) (t : Term) :
    ∃ combine : List Expr → Using Obstacle Expr,
    ctx.lower shape t = ctx.lowerAll shape t.operands >>= combine := by
  have hleaf : t.operands = [] → ∃ combine : List Expr → Using Obstacle Expr,
      ctx.lower shape t = ctx.lowerAll shape t.operands >>= combine := by
    intro h
    rw [h, lowerAll]
    exact ⟨fun _ => ctx.lower shape t, (pure_bind _ _).symm⟩
  cases t with
  | member target label =>
    cases hoperands : (Term.member target label).operands with
    | nil => exact hoperands ▸ hleaf hoperands
    | cons selected rest =>
      simp only [Term.operands] at hoperands
      split at hoperands
      · rename_i members ht
        cases hs : Term.memberNamed? label members with
        | none =>
          rw [hs] at hoperands
          cases hoperands
        | some u =>
          rw [hs] at hoperands
          cases hoperands
          refine ⟨fun es => pure (es.headD (.null .object)), ?_⟩
          rw [lower_of_selected ht hs]
          simp [lowerAll]
      · cases hoperands
  | unary op operand =>
    refine ⟨fun es => liftM (op.lower operand (es.headD (.null .object))), ?_⟩
    simp [lower, lowerAll, Term.operands]
  | binary op left right =>
    refine ⟨fun es => liftM (op.lower (es.headD (.null .object))
      (es.tail.headD (.null .object))), ?_⟩
    simp [lower, lowerAll, Term.operands]
  | call receiver method arguments =>
    refine ⟨fun es => liftM (ctx.lowerCall (es.headD (.null .object)) method es.tail), ?_⟩
    simp [lower, lowerAll, Term.operands]
  | _ => exact hleaf rfl

theorem effect_append (ts us : List Term) : (ctx.lowerAll shape (ts ++ us)).effect =
    ctx.lowerAll shape ts >>= fun _ => (ctx.lowerAll shape us).effect := by
  simp [lowerAll_append, Using.effect]

theorem effect_cons (t : Term) (ts : List Term) : (ctx.lowerAll shape (t :: ts)).effect =
    ctx.lower shape t >>= fun _ => (ctx.lowerAll shape ts).effect := by
  simp [lowerAll, Using.effect]

theorem effect_flatMap {us : List Term} (h : ∀ u ∈ us,
    (ctx.lowerAll shape u.visited).effect = (ctx.lower shape u).effect) :
    (ctx.lowerAll shape (us.flatMap Term.visited)).effect = (ctx.lowerAll shape us).effect := by
  induction us with
  | nil => rfl
  | cons u us ih =>
    have hrest := ih fun v hv => h v (List.mem_cons_of_mem u hv)
    have hfirst := h u List.mem_cons_self
    rw [List.flatMap_cons, effect_append, Using.bind_congr_effect hfirst, hrest, effect_cons]

/-- **Lowering the parts of a term one by one has the effect of lowering the term.** Each part is
    lowered once more as an operand of the next one, which adds nothing. -/
theorem effect_visited (t : Term) :
    (ctx.lowerAll shape t.visited).effect = (ctx.lower shape t).effect := by
  have hparts : (ctx.lowerAll shape (t.operands.flatMap Term.visited)).effect =
      (ctx.lowerAll shape t.operands).effect := effect_flatMap fun u hu =>
    have := Term.sizeOf_lt_of_mem_operands hu
    effect_visited u
  obtain ⟨combine, hcombine⟩ := ctx.exists_lower_eq shape t
  have hself : (ctx.lower shape t).effect =
      ctx.lowerAll shape t.operands >>= fun es => (combine es).effect := by
    rw [hcombine]
    exact bind_assoc _ _ _
  have hsingle : (ctx.lowerAll shape [t]).effect = (ctx.lower shape t).effect := by
    rw [effect_cons, lowerAll]
    rfl
  rw [Term.visited_eq, effect_append, hsingle, Using.bind_congr_effect hparts, hself]
  exact ((ctx.closed_repeatable shape).lowerAll t.operands).twice _
termination_by sizeOf t

end Context

theorem Using.effect_eq_error_iff {ε α : Type} {x : Using ε α} {memo memo' : Memo} {e : ε} :
    x.effect memo = (.error e, memo') ↔ x memo = (.error e, memo') := by
  rcases hafter : x memo with ⟨r, after⟩
  cases r with
  | ok a =>
    rw [effect, Using.bind_of_ok hafter]
    constructor <;> intro h <;> cases h
  | error e' =>
    rw [effect, Using.bind_of_error hafter]
    constructor <;> intro h <;> cases h <;> rfl

theorem Session.noting_eq_none_iff {α : Type} {shape : Shape} {details : Option String}
    {r : Except Obstacle α × Memo} {s : Session} : noting shape details r = (none, s) ↔
      ∃ cause memo, r = (.error cause, memo) ∧
        s = ⟨{ shape with memo := memo }, some cause.message⟩ := by
  obtain ⟨r, memo⟩ := r
  cases r with
  | ok a => simp [noting]
  | error cause =>
    constructor
    · intro h
      cases h
      exact ⟨cause, memo, rfl, rfl⟩
    · rintro ⟨cause', memo', h, rfl⟩
      cases h
      rfl

namespace Context

variable {ctx : Context} {shape : Shape}

theorem firstFailure_iff (ctx : Context) (shape : Shape) (ts : List Term) (memo : Memo)
    (details : Option String) (s : Session) :
    (∃ u, FirstFailure ctx ts ⟨{ shape with memo := memo }, details⟩ u s) ↔
      ∃ cause memo', (ctx.lowerAll shape ts).effect memo = (.error cause, memo') ∧
        s = ⟨{ shape with memo := memo' }, some cause.message⟩ := by
  induction ts generalizing memo details with
  | nil =>
    constructor
    · rintro ⟨u, h⟩
      cases h
    · rintro ⟨cause, memo', h, -⟩
      rw [lowerAll] at h
      cases h
  | cons t ts ih =>
    have ht := ctx.translate_eq shape t memo details
    rw [effect_cons]
    rcases hl : ctx.lower shape t memo with ⟨r, memo₁⟩
    rw [hl] at ht
    cases r with
    | ok e =>
      rw [Using.bind_of_ok hl, ← ih memo₁ none]
      constructor
      · rintro ⟨u, h⟩
        cases h with
        | here h _ => cases ht.symm.trans h
        | later h hrest =>
          cases ht.symm.trans h
          exact ⟨u, hrest⟩
      · rintro ⟨u, h⟩
        exact ⟨u, .later ht h⟩
    | error cause =>
      rw [Using.bind_of_error hl]
      constructor
      · rintro ⟨u, h⟩
        cases h with
        | here h _ =>
          cases ht.symm.trans h
          exact ⟨cause, memo₁, rfl, rfl⟩
        | later h _ => cases ht.symm.trans h
      · rintro ⟨cause', memo', h, rfl⟩
        cases h
        exact ⟨t, .here ht ts⟩

/-- **A translation fails with the first of its parts**, and as that part does. -/
theorem translate_eq_none_iff (t : Term) (s s' : Session) :
    ctx.translate t s = (none, s') ↔ ∃ u, FirstFailure ctx t.visited s u s' := by
  obtain ⟨shape, details⟩ := s
  have ht := ctx.translate_eq shape t shape.memo details
  have hparts := ctx.firstFailure_iff shape t.visited shape.memo details s'
  simp only [effect_visited, Using.effect_eq_error_iff] at hparts
  exact (ht ▸ Session.noting_eq_none_iff).trans hparts.symm

/-- **What has failed fails again in the session that it leaves**, and leaves it as it is. -/
theorem translate_again {t : Term} {s s' : Session} (h : ctx.translate t s = (none, s')) :
    ctx.translate t s' = (none, s') := by
  have ht := ctx.translate_eq s.shape t s.shape.memo s.details
  obtain ⟨cause, memo, hlower, rfl⟩ := Session.noting_eq_none_iff.mp (ht.symm.trans h)
  have hagain := ((ctx.closed_repeatable s.shape).lower t).again _ _ memo memo hlower
    (List.prefix_refl memo)
  rw [translate_eq, hagain]
  rfl

end Context

theorem FirstFailure.fails {ctx : Context} {ts : List Term} {s s' : Session} {u : Term}
    (h : FirstFailure ctx ts s u s') : ∃ before, ctx.translate u before = (none, s') := by
  induction h with
  | here h _ => exact ⟨_, h⟩
  | later _ _ ih => exact ih

/-! ## 4. Attributes in use do not matter -/

/-- Whichever faithful attributes are in use, the outcome is the same, and they stay faithful. -/
def Steady {ε α : Type} (root : Entity) (x : Using ε α) : Prop :=
  ∀ memo memo' : Memo, memo.Faithful root → memo'.Faithful root →
    (x memo).1 = (x memo').1 ∧ (x memo).2.Faithful root

/-- **Lowering is steady over the rows of one entity.** -/
theorem Context.closed_steady {ctx : Context} {root : Entity} {shape : Shape}
    (h : shape.Rooted ctx.model root) : ctx.Closed shape fun _ _ x => Steady root x where
  lift e := fun _ _ hmemo _ => ⟨rfl, hmemo⟩
  use {ε entity path label property} hproperty := by
    intro memo memo' hmemo hmemo'
    have hfound := congrArg Except.toOption hproperty
    rw [toOption_rowProperty] at hfound
    have hfind := (h.property?_eq hfound).2
    rw [← Entity.name_of_find? hfind] at hfind
    rw [h.source_eq]
    obtain ⟨href, hfaithful⟩ := hmemo.use hfind
    have href' := (hmemo'.use hfind).1
    exact ⟨congrArg Except.ok (href.trans href'.symm), hfaithful⟩
  bind {ε α β x f} hx hf := by
    intro memo memo' hmemo hmemo'
    obtain ⟨hsame, hfaithful⟩ := hx memo memo' hmemo hmemo'
    have hfaithful' := (hx memo' memo hmemo' hmemo).2
    rcases hafter : x memo with ⟨r, after⟩
    rcases hafter' : x memo' with ⟨r', after'⟩
    rw [hafter] at hsame hfaithful
    rw [hafter'] at hsame hfaithful'
    obtain rfl : r = r' := hsame
    cases r with
    | error e =>
      rw [Using.bind_of_error hafter, Using.bind_of_error hafter']
      exact ⟨rfl, hfaithful⟩
    | ok a =>
      rw [Using.bind_of_ok hafter, Using.bind_of_ok hafter']
      exact hf memo a after hafter after after' hfaithful hfaithful'

namespace Context

variable {ctx : Context} {root : Entity} {shape : Shape}

/-- Translating a term in two sessions that differ in the attributes in use alone. -/
theorem translate_steady (h : shape.Rooted ctx.model root) (t : Term) {memo memo' : Memo}
    (hmemo : memo.Faithful root) (hmemo' : memo'.Faithful root) (details details' : Option String) :
    (ctx.translate t ⟨{ shape with memo := memo }, details⟩).1 =
        (ctx.translate t ⟨{ shape with memo := memo' }, details'⟩).1 ∧
      (ctx.translate t ⟨{ shape with memo := memo }, details⟩).2.details =
        (ctx.translate t ⟨{ shape with memo := memo' }, details'⟩).2.details := by
  have hsame := ((closed_steady h).lower t memo memo' hmemo hmemo').1
  rw [translate_eq, translate_eq]
  rcases hl : ctx.lower shape t memo with ⟨r, after⟩
  rcases hl' : ctx.lower shape t memo' with ⟨r', after'⟩
  rw [hl, hl'] at hsame
  obtain rfl : r = r' := hsame
  cases r <;> exact ⟨rfl, rfl⟩

/-- **The part that fails fails in the same way at the start**, before the parts in front of it have
    taken attributes into use. -/
theorem translate_firstFailure (h : shape.Rooted ctx.model root) {ts : List Term} {memo : Memo}
    (hmemo : memo.Faithful root) {details : Option String} {u : Term} {s : Session}
    (hfirst : FirstFailure ctx ts ⟨{ shape with memo := memo }, details⟩ u s) :
    (ctx.translate u ⟨{ shape with memo := memo }, details⟩).1 = none ∧
      (ctx.translate u ⟨{ shape with memo := memo }, details⟩).2.details = s.details := by
  induction ts generalizing memo details with
  | nil => cases hfirst
  | cons t ts ih =>
    cases hfirst with
    | here hfails _ =>
      rw [hfails]
      exact ⟨rfl, rfl⟩
    | later hok hrest =>
      have hlower := ctx.translate_eq shape t memo details
      rcases hl : ctx.lower shape t memo with ⟨r, memo₁⟩
      have hfaithful := ((closed_steady h).lower t memo memo hmemo hmemo).2
      rw [hl] at hlower hfaithful
      cases r with
      | error cause => cases hlower.symm.trans hok
      | ok e =>
        cases hlower.symm.trans hok
        obtain ⟨hnone, hdetails⟩ := ih hfaithful hrest
        obtain ⟨hresult, hnoted⟩ := translate_steady h u hmemo hfaithful details none
        exact ⟨hresult.trans hnone, hnoted.trans hdetails⟩

end Context

end EntityQuery
