import EntityQuery.Proofs.Grammar
import Mathlib.Data.Option.Basic

/-!
What the text of a condition is read as.

An operation inside another one is written in parentheses, but an operator before an operand is not,
although NOT binds looser than a comparison, a test for null and a minus.

* `Skeleton.Aligned` -- NOT stands under none of these three;
* `Skeleton.Aligned.derived` -- **such a skeleton can be read from its own tokens**;
* `Skeleton.regroup` -- what the tokens of any skeleton are read as;
* `Skeleton.read?_tokens` -- **the machine reads them as that**;
* `Skeleton.readFrom_tokens_iff` -- tokens give back their skeleton exactly if it is aligned;
* `Model.conditions_read_back_if_aligned` -- so for the condition of every chain.
-/
namespace EntityQuery

namespace Skeleton

/-! ## 1. Aligned skeletons -/

/-- NOT of something. -/
def isNot : Skeleton → Bool
  | .unary .not _ => true
  | _ => false

theorem eq_not_of_isNot {s : Skeleton} (h : s.isNot = true) : ∃ t, s = .unary .not t := by
  unfold isNot at h
  split at h
  · exact ⟨_, rfl⟩
  · cases h

/-- NOT is an operand of AND, OR and NOT only, or an argument. -/
inductive Aligned : Skeleton → Prop where
  | null : Aligned .null
  | placeholder : Aligned .placeholder
  | name (n : String) : Aligned (.name n)
  | unary (op : Expr.UnaryOp) {operand : Skeleton}
      (hop : op = .negate → operand.isNot = false) (h : Aligned operand) :
      Aligned (.unary op operand)
  | binary (op : Expr.BinaryOp) {left right : Skeleton}
      (hop : op.isLogical = false → left.isNot = false ∧ right.isNot = false)
      (hl : Aligned left) (hr : Aligned right) : Aligned (.binary op left right)
  | nullTest (negated : Bool) {operand : Skeleton} (hop : operand.isNot = false)
      (h : Aligned operand) : Aligned (.nullTest negated operand)
  | call (function : String) {arguments : List Skeleton} (h : ∀ s ∈ arguments, Aligned s) :
      Aligned (.call function arguments)

/-- How tightly an operand binds. -/
def level : Skeleton → Nat
  | .unary op _ => op.strength
  | _ => 6

theorem three_le_level (s : Skeleton) : 3 ≤ s.level := by
  cases s with
  | unary op operand => cases op <;> exact Nat.le_of_ble_eq_true rfl
  | _ => exact Nat.le_of_ble_eq_true rfl

theorem five_le_level {s : Skeleton} (h : s.isNot = false) : 5 ≤ s.level := by
  cases s with
  | unary op operand =>
    cases op with
    | not => cases h
    | negate => exact Nat.le_refl 5
  | _ => exact Nat.le_of_ble_eq_true rfl

/-- The grammar has the tokens of the skeleton for it, both inside an expression and alone. -/
structure Derived (s : Skeleton) : Prop where
  inside : (Phrase.expression s.level s).Derives (s.tokens true)
  alone : s.ReadFrom (s.tokens false)

namespace Derived

variable {s : Skeleton}

theorem of_operand (hs : s.tokens false = s.tokens true)
    (h : (Phrase.expression s.level s).Derives (s.tokens true)) : s.Derived where
  inside := h
  alone := by
    rw [hs]
    exact h.of_le (Nat.le_trans (by decide) s.three_le_level)

theorem of_alone (hs : s.tokens true = .opening :: (s.tokens false ++ [.closing]))
    (hlevel : s.level = 6) (h : s.ReadFrom (s.tokens false)) : s.Derived where
  inside := by
    rw [hs, hlevel]
    exact .parentheses h
  alone := h

theorem further : ∀ {ss : List Skeleton}, (∀ s ∈ ss, s.Derived) →
    (Phrase.further ss).Derives (furtherTokens ss)
  | [], _ => .noFurther
  | s :: _, h => .further (h s List.mem_cons_self).alone
      (further fun t ht => h t (List.mem_cons_of_mem s ht))

theorem arguments {ss : List Skeleton} (h : ∀ s ∈ ss, s.Derived) :
    (Phrase.arguments ss).Derives (argumentTokens ss) := by
  cases ss with
  | nil => exact .noArguments
  | cons s ss =>
    exact .arguments (h s List.mem_cons_self).alone
      (further fun t ht => h t (List.mem_cons_of_mem s ht))

end Derived

/-- **An aligned skeleton can be read from its own tokens.** -/
theorem Aligned.derived {s : Skeleton} (h : s.Aligned) : s.Derived := by
  induction h with
  | null => exact .of_operand rfl .null
  | placeholder => exact .of_operand rfl .placeholder
  | name n => exact .of_operand rfl (.name n)
  | @unary op operand hop _ ih =>
    have hlevel : op.strength ≤ operand.level := by
      cases op with
      | not => exact operand.three_le_level
      | negate => exact five_le_level (hop rfl)
    exact .of_operand rfl (.unary op (ih.inside.of_le hlevel))
  | @binary op left right hop _ _ ihl ihr =>
    have hlevel : op.strength ≤ left.level ∧ op.strength + 1 ≤ right.level := by
      cases hlogical : op.isLogical with
      | true =>
        have hstrength : op.strength ≤ 2 := by
          cases op <;> first | decide | cases hlogical
        exact ⟨Nat.le_trans hstrength (Nat.le_trans (by decide) left.three_le_level),
          Nat.le_trans (Nat.succ_le_succ hstrength) right.three_le_level⟩
      | false =>
        have hstrength : op.strength = 4 := by
          cases op <;> first | rfl | cases hlogical
        rw [hstrength]
        exact ⟨Nat.le_of_succ_le (five_le_level (hop hlogical).1),
          five_le_level (hop hlogical).2⟩
    have hread := Phrase.Derives.binary op (ihl.inside.of_le hlevel.1)
      (ihr.inside.of_le hlevel.2)
    exact .of_alone rfl rfl (hread.of_le (by cases op <;> decide))
  | @nullTest negated operand hop _ ih =>
    have hread := Phrase.Derives.nullTest negated
      (ih.inside.of_le (Nat.le_of_succ_le (five_le_level hop)))
    exact .of_alone rfl rfl (hread.of_le (by decide))
  | call function _ ih => exact .of_operand rfl (.call function (Derived.arguments ih))

/-! ## 2. Other skeletons -/

mutual
/-- What the tokens of a skeleton are read as, if what follows them goes to the operand inside its
    first NOTs. -/
def regroup (wrap : Skeleton → Skeleton) : Skeleton → Option Skeleton
  | .unary .not operand => (regroup wrap operand).map (.unary .not)
  | .unary .negate operand =>
    if operand.isNot then none
    else (regroup id operand).map fun s => wrap (.unary .negate s)
  | .binary op left right =>
    if op.isLogical then
      (regroup id left).bind fun s => (regroup id right).map fun t => wrap (.binary op s t)
    else if right.isNot then none
    else (regroup id right).bind fun t => (regroup (fun s => .binary op s t) left).map wrap
  | .nullTest negated operand => (regroup (.nullTest negated) operand).map wrap
  | .call function arguments =>
    (regroupAll arguments).map fun ss => wrap (.call function ss)
  | s => some (wrap s)

/-- What the tokens of arguments are read as. -/
def regroupAll : List Skeleton → Option (List Skeleton)
  | [] => some []
  | s :: rest => (regroup id s).bind fun t => (regroupAll rest).map fun ts => t :: ts
end

/-- Without a NOT before it, an operand is read by itself. -/
theorem regroup_of_isNot {s : Skeleton} (h : s.isNot = false) (wrap : Skeleton → Skeleton) :
    s.regroup wrap = (s.regroup id).map wrap := by
  cases s with
  | unary op operand =>
    cases op with
    | not => cases h
    | negate =>
      rw [regroup, regroup]
      split
      · rfl
      · rw [Option.map_map]
        rfl
  | binary op left right =>
    rw [regroup, regroup]
    split
    · rw [Option.map_bind]
      congr 1
      funext s
      exact (Option.map_map ..).symm
    · split
      · rfl
      · rw [Option.map_bind]
        congr 1
        funext t
        simp
  | nullTest negated operand => simp [regroup]
  | call function arguments =>
    rw [regroup, regroup, Option.map_map]
    rfl
  | _ => rfl

open Parsing

theorem run_not_of_level {pending : List Frame} (h : ¬ Frame.level pending ≤ 3) {s : Skeleton}
    (hs : s.isNot = true) (r : List Token) :
    run (.operand pending) (s.tokens true ++ r) = none := by
  obtain ⟨t, rfl⟩ := eq_not_of_isNot hs
  refine run_cons_none ?_ _
  rw [step]
  exact if_neg h

/-- **What the machine does with the tokens of a skeleton.** -/
structure Evaluated (s : Skeleton) : Prop where
  /-- An operand without NOT, before anything that may follow an operand. -/
  operand : s.isNot = false → ∀ {pending : List Frame} {r : List Token}, Ends 4 r →
    run (.operand pending) (s.tokens true ++ r) =
      (s.regroup id).bind fun t => run (.value t pending) r
  /-- An operand of NOT, AND or OR, or of the operator or test that the tokens after it begin
      with. -/
  tail : ∀ {pending : List Frame} {r r' : List Token} {wrap? : Option (Skeleton → Skeleton)},
    Frame.level pending ≤ 3 → Ends 4 r → Ends 3 r' →
    (∀ {t : Skeleton} {pending : List Frame}, Frame.level pending ≤ 3 →
      run (.value t pending) r = wrap?.bind fun wrap => run (.value (wrap t) pending) r') →
    run (.operand pending) (s.tokens true ++ r) =
      wrap?.bind fun wrap => (s.regroup wrap).bind fun t => run (.value t pending) r'
  /-- A whole condition or argument. -/
  alone : ∀ {pending : List Frame} {r : List Token}, Frame.level pending ≤ 1 → Ends 0 r →
    run (.operand pending) (s.tokens false ++ r) =
      (s.regroup id).bind fun t => run (.value t pending) r

namespace Evaluated

section

variable {s : Skeleton}

theorem tail_of_operand (hs : s.isNot = false)
    (operand : ∀ {pending : List Frame} {r : List Token}, Ends 4 r →
      run (.operand pending) (s.tokens true ++ r) =
        (s.regroup id).bind fun t => run (.value t pending) r)
    {pending : List Frame} {r r' : List Token} {wrap? : Option (Skeleton → Skeleton)}
    (hr : Ends 4 r)
    (htail : ∀ {t : Skeleton}, run (.value t pending) r =
      wrap?.bind fun wrap => run (.value (wrap t) pending) r') :
    run (.operand pending) (s.tokens true ++ r) =
      wrap?.bind fun wrap => (s.regroup wrap).bind fun t => run (.value t pending) r' := by
  rw [operand hr]
  cases wrap? with
  | none => simp [htail]
  | some wrap => simp [htail, regroup_of_isNot hs wrap, Option.bind_map]

/-- An operand without NOT is read by itself, whatever follows. -/
theorem of_operand (hs : s.isNot = false) (htokens : s.tokens false = s.tokens true)
    (operand : ∀ {pending : List Frame} {r : List Token}, Ends 4 r →
      run (.operand pending) (s.tokens true ++ r) =
        (s.regroup id).bind fun t => run (.value t pending) r) : s.Evaluated where
  operand := fun _ => operand
  tail := fun hlevel hr _ htail => tail_of_operand hs operand hr (htail hlevel)
  alone := by
    intro pending r _ hr
    rw [htokens]
    exact operand (hr.mono (Nat.zero_le 4))

/-- An operation is in parentheses where it is an operand. -/
theorem of_alone (hs : s.isNot = false)
    (htokens : s.tokens true = .opening :: (s.tokens false ++ [.closing]))
    (alone : ∀ {pending : List Frame} {r : List Token}, Frame.level pending ≤ 1 → Ends 0 r →
      run (.operand pending) (s.tokens false ++ r) =
        (s.regroup id).bind fun t => run (.value t pending) r) : s.Evaluated := by
  have operand : ∀ {pending : List Frame} {r : List Token}, Ends 4 r →
      run (.operand pending) (s.tokens true ++ r) =
        (s.regroup id).bind fun t => run (.value t pending) r := by
    intro pending r _
    have hopen : run (.operand pending) (.opening :: (s.tokens false ++ .closing :: r)) =
        run (.operand (.group :: pending)) (s.tokens false ++ .closing :: r) := run_cons rfl _
    have hinside := @alone (.group :: pending) (.closing :: r) (Nat.le_refl 1)
      (ends_cons rfl (Nat.le_refl 0) r)
    rw [htokens, List.cons_append, List.append_assoc]
    exact hopen.trans hinside
  exact ⟨fun _ => operand, fun hlevel hr _ htail => tail_of_operand hs operand hr (htail hlevel),
    alone⟩

/-- Nothing need follow an operand of AND, OR or NOT. -/
theorem loose (h : s.Evaluated) {pending : List Frame} {r : List Token}
    (hlevel : Frame.level pending ≤ 3) (hr : Ends 3 r) :
    run (.operand pending) (s.tokens true ++ r) =
      (s.regroup id).bind fun t => run (.value t pending) r :=
  @tail s h pending r r (some id) hlevel (hr.mono (by decide)) hr fun _ => rfl

theorem not (h : s.Evaluated) : (Skeleton.unary .not s).Evaluated := by
  have tail : ∀ {pending : List Frame} {r r' : List Token} {wrap? : Option (Skeleton → Skeleton)},
      Frame.level pending ≤ 3 → Ends 4 r → Ends 3 r' →
      (∀ {t : Skeleton} {pending : List Frame}, Frame.level pending ≤ 3 →
        run (.value t pending) r = wrap?.bind fun wrap => run (.value (wrap t) pending) r') →
      run (.operand pending) ((Skeleton.unary .not s).tokens true ++ r) =
        wrap?.bind fun wrap => ((Skeleton.unary .not s).regroup wrap).bind fun t =>
          run (.value t pending) r' := by
    intro pending r r' wrap? hlevel hr hr' htail
    rw [tokens, List.cons_append, run_unary hlevel,
      h.tail (Nat.le_of_eq (Frame.level_before .not pending)) hr hr' htail]
    congr 1
    funext wrap
    have hbefore : ∀ t, run (.value t (.before .not :: pending)) r' =
        run (.value (.unary .not t) pending) r' := fun t => run_before hr'
    simp [regroup, hbefore, Option.bind_map]
  refine ⟨fun hs => (by cases hs), tail, fun {pending r} hlevel hr => ?_⟩
  exact @tail pending r r (some id) (Nat.le_trans hlevel (by decide))
    (hr.mono (Nat.zero_le 4)) (hr.mono (Nat.zero_le 3)) fun _ => rfl

theorem negate (h : s.Evaluated) : (Skeleton.unary .negate s).Evaluated := by
  refine of_operand rfl rfl fun {pending r} hr => ?_
  rw [tokens, List.cons_append, run_unary (Frame.level_le pending), regroup]
  cases hs : s.isNot with
  | true => exact run_not_of_level (by rw [Frame.level_before]; decide) hs r
  | false =>
    have hbefore : ∀ t, run (.value t (.before .negate :: pending)) r =
        run (.value (.unary .negate t) pending) r := fun t => run_before (hr.mono (by decide))
    rw [h.operand hs hr]
    simp [hbefore, Option.bind_map]

theorem nullTest (negated : Bool) (h : s.Evaluated) : (Skeleton.nullTest negated s).Evaluated := by
  refine of_alone rfl rfl fun {pending r} hlevel hr => ?_
  have htest : Ends 4 (testTokens negated ++ r) := by
    cases negated <;> exact ends_cons rfl (Nat.le_refl 4) _
  rw [tokens_nullTest, List.append_assoc]
  rw [@tail s h pending _ r (some (.nullTest negated)) (Nat.le_trans hlevel (by decide)) htest
    (hr.mono (Nat.zero_le 3)) fun {t pending} hpending =>
      run_nullTest negated (Nat.le_trans hpending (by decide)) r]
  simp [regroup]

end

section

variable {left right : Skeleton}

theorem logical {op : Expr.BinaryOp} (hop : op.isLogical = true) (hl : left.Evaluated)
    (hr : right.Evaluated) : (Skeleton.binary op left right).Evaluated := by
  have hstrength : 1 ≤ op.strength ∧ op.strength ≤ 2 := by
    cases op <;> first | decide | cases hop
  refine of_alone rfl rfl fun {pending r} hlevel hend => ?_
  have hbetween : ∀ s t, run (.value t (.between op s :: pending)) r =
      run (.value (.binary op s t) pending) r :=
    fun s t => run_between (hend.mono (Nat.zero_le _))
  have hright : ∀ s, run (.value s pending) (.binary op :: (right.tokens true ++ r)) =
      (right.regroup id).bind fun t => run (.value (.binary op s t) pending) r := by
    intro s
    have hlevel' : Frame.level (.between op s :: pending) ≤ 3 := Nat.succ_le_succ hstrength.2
    rw [run_binary (Nat.le_trans hlevel hstrength.1), hr.loose hlevel' (hend.mono (Nat.zero_le 3))]
    simp [hbetween]
  rw [tokens_binary, List.append_assoc, List.cons_append,
    hl.loose (Nat.le_trans hlevel (by decide))
      (ends_cons rfl (Nat.le_trans hstrength.2 (by decide)) _), regroup, if_pos hop]
  simp [hright, Option.bind_assoc, Option.bind_map]

theorem comparison {op : Expr.BinaryOp} (hop : op.isLogical = false) (hl : left.Evaluated)
    (hr : right.Evaluated) : (Skeleton.binary op left right).Evaluated := by
  have hstrength : op.strength = 4 := by
    cases op <;> first | rfl | cases hop
  refine of_alone rfl rfl fun {pending r} hlevel hend => ?_
  have hbetween : ∀ s t pending, run (.value t (.between op s :: pending)) r =
      run (.value (.binary op s t) pending) r :=
    fun s t pending => run_between (hend.mono (Nat.zero_le _))
  have hop' : Ends 4 (.binary op :: (right.tokens true ++ r)) :=
    ends_cons rfl (Nat.le_of_eq hstrength) _
  have hpush : ∀ {s : Skeleton} {pending : List Frame}, Frame.level pending ≤ 3 →
      run (.value s pending) (.binary op :: (right.tokens true ++ r)) =
        run (.operand (.between op s :: pending)) (right.tokens true ++ r) :=
    fun hpending => run_binary (Nat.le_trans hpending (by rw [hstrength]; decide)) _
  have hlevel' : Frame.level pending ≤ 3 := Nat.le_trans hlevel (by decide)
  rw [tokens_binary, List.append_assoc, List.cons_append, regroup, hop]
  cases hs : right.isNot with
  | true =>
    -- the grammar has no NOT after a comparison
    refine (@tail left hl pending _ r none hlevel' hop' (hend.mono (Nat.zero_le 3))
      fun {s pending} hpending => ?_).trans rfl
    rw [hpush hpending]
    exact run_not_of_level (by rw [Frame.level_between, hstrength]; decide) hs r
  | false =>
    rw [@tail left hl pending _ r ((right.regroup id).map fun t s => .binary op s t) hlevel' hop'
      (hend.mono (Nat.zero_le 3)) fun {s pending} hpending => ?_]
    · simp [Option.bind_map, Option.bind_assoc]
    · rw [hpush hpending, hr.operand hs (hend.mono (Nat.zero_le 4))]
      simp [hbetween, Option.bind_map]

end

theorem further {function : String} :
    ∀ {ss : List Skeleton}, (∀ s ∈ ss, s.Evaluated) →
      ∀ (done : List Skeleton) (t : Skeleton) (pending : List Frame) (r : List Token),
        run (.value t (.call function done :: pending)) (furtherTokens ss ++ r) =
          (regroupAll ss).bind fun ts => run (.value (.call function (done ++ t :: ts)) pending) r
  | [], _, _, _, _, r => run_cons rfl r
  | s :: ss, h, done, t, pending, r => by
    have hcomma : run (.value t (.call function done :: pending))
          (.comma :: (s.tokens false ++ (furtherTokens ss ++ r))) =
        run (.operand (.call function (done ++ [t]) :: pending))
          (s.tokens false ++ (furtherTokens ss ++ r)) := run_cons rfl _
    have hrest := @further function ss fun u hu => h u (List.mem_cons_of_mem s hu)
    have hends : Ends 0 (furtherTokens ss ++ r) := by
      cases ss <;> exact ends_cons rfl (Nat.le_refl 0) _
    rw [furtherTokens, List.cons_append, List.append_assoc, hcomma,
      (h s List.mem_cons_self).alone (Nat.le_of_eq (Frame.level_call function (done ++ [t]) pending))
        hends, regroupAll]
    simp [hrest, Option.bind_assoc, Option.bind_map]

theorem arguments {function : String} {ss : List Skeleton} (h : ∀ s ∈ ss, s.Evaluated)
    (pending : List Frame) (r : List Token) :
    run (.operand (.call function [] :: pending)) (argumentTokens ss ++ r) =
      (regroupAll ss).bind fun ts => run (.value (.call function ts) pending) r := by
  cases ss with
  | nil => exact run_cons rfl r
  | cons s ss =>
    have hrest := fun t => @further function ss (fun u hu => h u (List.mem_cons_of_mem s hu)) []
      t pending r
    have hends : Ends 0 (furtherTokens ss ++ r) := by
      cases ss <;> exact ends_cons rfl (Nat.le_refl 0) _
    rw [argumentTokens, List.append_assoc, (h s List.mem_cons_self).alone
      (Nat.le_of_eq (Frame.level_call function [] pending)) hends, regroupAll]
    simp [hrest, Option.bind_assoc, Option.bind_map]

theorem call (function : String) {ss : List Skeleton} (h : ∀ s ∈ ss, s.Evaluated) :
    (Skeleton.call function ss).Evaluated := by
  refine of_operand rfl rfl fun {pending r} _ => ?_
  have hopen : run (.operand pending) (.word function :: .opening :: (argumentTokens ss ++ r)) =
      run (.operand (.call function [] :: pending)) (argumentTokens ss ++ r) :=
    (run_cons rfl _).trans (run_cons rfl _)
  rw [tokens, List.cons_append, List.cons_append, hopen, arguments h, regroup]
  simp [Option.bind_map]

end Evaluated

theorem evaluated (s : Skeleton) : s.Evaluated := by
  induction s with
  | null => exact .of_operand rfl rfl fun {_ r} _ => run_cons rfl r
  | placeholder => exact .of_operand rfl rfl fun {_ r} _ => run_cons rfl r
  | name n => exact .of_operand rfl rfl fun {_ r} _ => run_cons rfl r
  | unary op operand ih =>
    cases op with
    | not => exact ih.not
    | negate => exact ih.negate
  | binary op left right ihl ihr =>
    cases hop : op.isLogical with
    | true => exact .logical hop ihl ihr
    | false => exact .comparison hop ihl ihr
  | nullTest negated operand ih => exact ih.nullTest negated
  | call function arguments ih => exact .call function ih

/-- **The machine reads the tokens of a skeleton as its regrouping.** -/
theorem read?_tokens (s : Skeleton) : read? (s.tokens false) = s.regroup id := by
  have halone := @(s.evaluated).alone [] [] (Nat.le_refl 1) (ends_nil 0)
  rw [List.append_nil] at halone
  refine halone.trans ?_
  cases s.regroup id <;> rfl

/-! ## 3. Which skeletons are read back -/

theorem eq_of_regroupAll {ss : List Skeleton} (h : regroupAll ss = some ss) :
    ∀ s ∈ ss, s.regroup id = some s := by
  induction ss with
  | nil => exact fun _ hs => absurd hs List.not_mem_nil
  | cons s ss ih =>
    rw [regroupAll] at h
    obtain ⟨t, ht, h⟩ := Option.bind_eq_some_iff.mp h
    obtain ⟨ts, hts, h⟩ := Option.map_eq_some_iff.mp h
    cases h
    exact List.forall_mem_cons.mpr ⟨ht, ih hts⟩

/-- What follows a row of NOTs leaves a NOT outside. -/
theorem isNot_of_regroup {s t : Skeleton} (hs : s.isNot = true) {wrap : Skeleton → Skeleton}
    (h : s.regroup wrap = some t) : t.isNot = true := by
  obtain ⟨u, rfl⟩ := eq_not_of_isNot hs
  obtain ⟨v, _, rfl⟩ := Option.map_eq_some_iff.mp h
  rfl

/-- If an operand and what follows it are read as something else than a NOT, the operand is read by
    itself. -/
theorem regroup_cases {s t : Skeleton} {wrap : Skeleton → Skeleton} (h : s.regroup wrap = some t)
    (ht : t.isNot = false) : s.isNot = false ∧ ∃ u, s.regroup id = some u ∧ wrap u = t := by
  cases hs : s.isNot with
  | true =>
    rw [isNot_of_regroup hs h] at ht
    cases ht
  | false =>
    rw [regroup_of_isNot hs wrap] at h
    exact ⟨rfl, Option.map_eq_some_iff.mp h⟩

/-- A skeleton that is its own regrouping is aligned. -/
theorem aligned_of_regroup {s : Skeleton} (h : s.regroup id = some s) : s.Aligned := by
  induction s with
  | null => exact .null
  | placeholder => exact .placeholder
  | name n => exact .name n
  | unary op operand ih =>
    cases op with
    | not =>
      obtain ⟨t, ht, heq⟩ := Option.map_eq_some_iff.mp h
      cases heq
      exact .unary .not (fun hop => by cases hop) (ih ht)
    | negate =>
      rw [regroup] at h
      split at h
      · cases h
      · rename_i hoperand
        obtain ⟨t, ht, heq⟩ := Option.map_eq_some_iff.mp h
        cases heq
        exact .unary .negate (fun _ => Bool.eq_false_iff.mpr hoperand) (ih ht)
  | binary op left right ihl ihr =>
    rw [regroup] at h
    split at h
    · rename_i hop
      obtain ⟨s, hs, h⟩ := Option.bind_eq_some_iff.mp h
      obtain ⟨t, ht, heq⟩ := Option.map_eq_some_iff.mp h
      cases heq
      exact .binary op (fun hop' => by rw [hop] at hop'; cases hop') (ihl hs) (ihr ht)
    · split at h
      · cases h
      · rename_i hright
        obtain ⟨t, ht, h⟩ := Option.bind_eq_some_iff.mp h
        rw [Option.map_id] at h
        obtain ⟨hleft, u, hu, heq⟩ := regroup_cases h rfl
        cases heq
        exact .binary op (fun _ => ⟨hleft, Bool.eq_false_iff.mpr hright⟩) (ihl hu) (ihr ht)
  | nullTest negated operand ih =>
    rw [regroup, Option.map_id] at h
    obtain ⟨hoperand, u, hu, heq⟩ := regroup_cases h rfl
    cases heq
    exact .nullTest negated hoperand (ih hu)
  | call function arguments ih =>
    rw [regroup] at h
    obtain ⟨ss, hss, heq⟩ := Option.map_eq_some_iff.mp h
    cases heq
    exact .call function fun s hs => ih s hs (eq_of_regroupAll hss s hs)

/-- **The tokens of a skeleton can be read as it exactly if it is aligned.** -/
theorem readFrom_tokens_iff (s : Skeleton) : s.ReadFrom (s.tokens false) ↔ s.Aligned := by
  constructor
  · intro h
    exact aligned_of_regroup (s.read?_tokens ▸ h.read?_eq)
  · intro h
    exact h.derived.alone

end Skeleton

/-! ## 4. Conditions -/

namespace Model

/-- **A condition is read back if it is aligned.** The statement of a chain with a condition ends in
    the text of the condition; its tokens can be read as one skeleton at most, and as that of the
    condition exactly if NOT is an operand of AND, OR and NOT only. -/
theorem conditions_read_back_if_aligned (model : Model) (chain : Chain) (q : Query) (e : Expr)
    (hrun : model.context.run chain = .ok q) (hfilter : q.shape.filter = some e) :
    ∃ s condition ts, model.context.statement chain = .ok s ∧
      s.text = "SELECT " ++ q.shape.selectList ++ " FROM " ++ quoteName q.shape.source.table ++
        " WHERE " ++ condition ∧
      Token.lex condition.toList = some ts ∧
      (e.skeleton.ReadFrom ts ↔ e.skeleton.Aligned) ∧
      ∀ t u : Skeleton, t.ReadFrom ts → u.ReadFrom ts → t = u := by
  obtain ⟨root, hq⟩ := Query.Renderable.of_run hrun
  obtain ⟨condition, s, hcondition, hs, htext, _⟩ := hq.statement_of_filter hfilter
  refine ⟨s, condition.text, e.skeleton.tokens false, Context.statement_of_run hrun hs, htext,
    Expr.lex_render (hq.condition e hfilter) hcondition, e.skeleton.readFrom_tokens_iff, ?_⟩
  intro t u ht hu
  exact ht.unique hu

/-- Those whose name does not start so, and those who are not active. -/
def notJoined : String := "Person.Where(p => !p.Name.StartsWith('A') || !p.Active)"

/-- NOT under OR is read back. -/
theorem conditions_read_back_if_aligned_of_or :
    ∃ chain q e ts, Chain.parse notJoined = .ok chain ∧ members.context.run chain = .ok q ∧
      q.shape.filter = some e ∧
      e.skeleton = .binary .or (.unary .not (.call "BEGINS_WITH" [.name "Name", .placeholder]))
        (.unary .not (.name "Active")) ∧
      e.skeleton.ReadFrom ts := by
  have hskeleton : (members.conditionOf? notJoined).map Expr.skeleton =
      some (.binary .or (.unary .not (.call "BEGINS_WITH" [.name "Name", .placeholder]))
        (.unary .not (.name "Active"))) := by
    decide +kernel
  obtain ⟨e, he, hskeleton⟩ := Option.map_eq_some_iff.mp hskeleton
  obtain ⟨chain, q, hparse, hrun, hfilter⟩ := exists_of_conditionOf? he
  obtain ⟨_, _, ts, _, _, _, hread, _⟩ :=
    conditions_read_back_if_aligned members chain q e hrun hfilter
  have haligned : e.skeleton.Aligned := by
    rw [hskeleton]
    refine .binary .or (fun hop => by cases hop) (.unary .not (fun hop => by cases hop) ?_)
      (.unary .not (fun hop => by cases hop) (.name "Active"))
    exact .call _ (List.forall_mem_cons.mpr
      ⟨.name "Name", List.forall_mem_singleton.mpr .placeholder⟩)
  exact ⟨chain, q, e, ts, hparse, hrun, hfilter, hskeleton, hread.mpr haligned⟩

/-- A comparison with NOT on its left. -/
def notCompared : String := "Person.Where(p => !p.Active == true)"

/-- **NOT before a comparison is read as NOT of the comparison**: the condition compares a negated
    attribute, and its text is read as the negation of a comparison. -/
theorem not_before_comparison_regroups :
    ∃ chain q e s ts, Chain.parse notCompared = .ok chain ∧ members.context.run chain = .ok q ∧
      q.shape.filter = some e ∧
      e.skeleton = .binary .equal (.unary .not (.name "Active")) .placeholder ∧
      e.render false = .ok s ∧ Token.lex s.text.toList = some ts ∧
      (Skeleton.unary .not (.binary .equal (.name "Active") .placeholder)).ReadFrom ts ∧
      ¬ e.skeleton.ReadFrom ts := by
  have hskeleton : (members.conditionOf? notCompared).map Expr.skeleton =
      some (.binary .equal (.unary .not (.name "Active")) .placeholder) := by
    decide +kernel
  obtain ⟨e, he, hskeleton⟩ := Option.map_eq_some_iff.mp hskeleton
  obtain ⟨chain, q, hparse, hrun, hfilter⟩ := exists_of_conditionOf? he
  obtain ⟨root, hq⟩ := Query.Renderable.of_run hrun
  obtain ⟨s, _, hs, _⟩ := hq.statement_of_filter hfilter
  have hread : (Skeleton.unary .not (.binary .equal (.name "Active") .placeholder)).ReadFrom
      (e.skeleton.tokens false) := by
    have hcomparison := Phrase.Derives.binary .equal
      ((Phrase.Derives.name "Active").of_le (by decide)) (Phrase.Derives.placeholder.looser)
    rw [hskeleton]
    exact (Phrase.Derives.unary .not hcomparison.looser).of_le (by decide)
  refine ⟨chain, q, e, s, e.skeleton.tokens false, hparse, hrun, hfilter, hskeleton, hs,
    Expr.lex_render (hq.condition e hfilter) hs, hread, fun hself => ?_⟩
  have heq := hread.unique hself
  rw [hskeleton] at heq
  cases heq

end Model

end EntityQuery
