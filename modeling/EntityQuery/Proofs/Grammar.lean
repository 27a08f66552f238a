import EntityQuery.Proofs.Unambiguous

/-!
The grammar of conditions.

From loosest to tightest: OR, AND, NOT, the comparisons with IS NULL and IS NOT NULL, a minus, and
what stands by itself. Operators between operands group to the left.

* `Phrase.Derives` -- which tokens the grammar has for a phrase;
* `Skeleton.ReadFrom` -- a skeleton that whole tokens can be read as;
* `Parsing` -- a machine that reads tokens from left to right and keeps pending operators;
* `Phrase.taken_of_derives` -- **the machine follows every derivation**;
* `Skeleton.ReadFrom.unique` -- **tokens can be read as one skeleton at most**.
-/
namespace EntityQuery

/-! ## 1. The grammar -/

/-- How tightly an operator before its operand binds. -/
def Expr.UnaryOp.strength : Expr.UnaryOp → Nat
  | .not => 3
  | .negate => 5

/-- How tightly an operator between its operands binds. -/
def Expr.BinaryOp.strength : Expr.BinaryOp → Nat
  | .or => 1
  | .and => 2
  | _ => 4

/-- The two kinds of operators have different strengths. -/
theorem Expr.UnaryOp.strength_ne (op : Expr.UnaryOp) (op' : Expr.BinaryOp) :
    op.strength ≠ op'.strength := by
  cases op <;> cases op' <;> decide

/-- A part of a condition: an expression whose operators bind at least as tightly as a level says,
    the arguments of a call up to its closing parenthesis, or those of them after the first. -/
inductive Phrase where
  | expression (level : Nat) (s : Skeleton)
  | arguments (ss : List Skeleton)
  | further (ss : List Skeleton)

/-- The tokens of a phrase. -/
inductive Phrase.Derives : Phrase → List Token → Prop where
  | null : Derives (.expression 6 .null) [.null]
  | placeholder : Derives (.expression 6 .placeholder) [.placeholder]
  | name (n : String) : Derives (.expression 6 (.name n)) [.name n]
  | parentheses {s : Skeleton} {ts : List Token} (h : Derives (.expression 1 s) ts) :
      Derives (.expression 6 s) (.opening :: (ts ++ [.closing]))
  | call (function : String) {ss : List Skeleton} {ts : List Token}
      (h : Derives (.arguments ss) ts) :
      Derives (.expression 6 (.call function ss)) (.word function :: .opening :: ts)
  | unary (op : Expr.UnaryOp) {s : Skeleton} {ts : List Token}
      (h : Derives (.expression op.strength s) ts) :
      Derives (.expression op.strength (.unary op s)) (.unary op :: ts)
  | binary (op : Expr.BinaryOp) {s t : Skeleton} {ts us : List Token}
      (hs : Derives (.expression op.strength s) ts)
      (ht : Derives (.expression (op.strength + 1) t) us) :
      Derives (.expression op.strength (.binary op s t)) (ts ++ .binary op :: us)
  | nullTest (negated : Bool) {s : Skeleton} {ts : List Token}
      (h : Derives (.expression 4 s) ts) :
      Derives (.expression 4 (.nullTest negated s)) (ts ++ Skeleton.testTokens negated)
  | looser {n : Nat} {s : Skeleton} {ts : List Token} (h : Derives (.expression (n + 1) s) ts) :
      Derives (.expression n s) ts
  | noArguments : Derives (.arguments []) [.closing]
  | arguments {s : Skeleton} {ss : List Skeleton} {ts us : List Token}
      (hs : Derives (.expression 1 s) ts) (hss : Derives (.further ss) us) :
      Derives (.arguments (s :: ss)) (ts ++ us)
  | noFurther : Derives (.further []) [.closing]
  | further {s : Skeleton} {ss : List Skeleton} {ts us : List Token}
      (hs : Derives (.expression 1 s) ts) (hss : Derives (.further ss) us) :
      Derives (.further (s :: ss)) (.comma :: (ts ++ us))

/-- The tokens, as a whole condition, can be read as the skeleton. -/
def Skeleton.ReadFrom (s : Skeleton) (ts : List Token) : Prop := (Phrase.expression 1 s).Derives ts

/-- Whatever binds tightly may stand where looser operators may. -/
theorem Phrase.Derives.of_le {n m : Nat} (hn : n ≤ m) {s : Skeleton} {ts : List Token}
    (h : (Phrase.expression m s).Derives ts) : (Phrase.expression n s).Derives ts := by
  induction hn with
  | refl => exact h
  | step _ ih => exact ih h.looser

/-! ## 2. The machine -/

/-- What waits for an operand or for a closing parenthesis. -/
inductive Frame where
  | before (op : Expr.UnaryOp)
  | between (op : Expr.BinaryOp) (left : Skeleton)
  | group
  | call (function : String) (done : List Skeleton)

/-- How tightly the operators of the next operand have to bind. -/
def Frame.level : List Frame → Nat
  | .before op :: _ => op.strength
  | .between op _ :: _ => op.strength + 1
  | _ => 1

theorem Frame.level_before (op : Expr.UnaryOp) (pending : List Frame) :
    level (.before op :: pending) = op.strength := rfl

theorem Frame.level_between (op : Expr.BinaryOp) (left : Skeleton) (pending : List Frame) :
    level (.between op left :: pending) = op.strength + 1 := rfl

theorem Frame.level_call (function : String) (done : List Skeleton) (pending : List Frame) :
    level (.call function done :: pending) = 1 := rfl

theorem Frame.level_le (pending : List Frame) : level pending ≤ 5 := by
  unfold level
  split
  · rename_i op _
    cases op <;> decide
  · rename_i op _ _
    cases op <;> decide
  · decide

/-- An operand goes to the pending operators that bind at least as tightly as what follows it. -/
def Frame.settle (n : Nat) : List Frame → Skeleton → List Frame × Skeleton
  | .before op :: pending, s =>
    if n ≤ op.strength then settle n pending (.unary op s) else (.before op :: pending, s)
  | .between op left :: pending, s =>
    if n ≤ op.strength then settle n pending (.binary op left s)
    else (.between op left :: pending, s)
  | pending, s => (pending, s)

/-- What comes next: an operand, the parenthesis of a call, something after an operand, or the rest
    of a test for null. -/
inductive Parsing where
  | operand (pending : List Frame)
  | called (name : String) (pending : List Frame)
  | value (s : Skeleton) (pending : List Frame)
  | is (s : Skeleton) (pending : List Frame)
  | isNot (s : Skeleton) (pending : List Frame)

namespace Parsing

/-- An operand before a comma is an argument. -/
def separate : List Frame × Skeleton → Option Parsing
  | (.call function done :: pending, s) => some (.operand (.call function (done ++ [s]) :: pending))
  | _ => none

/-- An operand before a closing parenthesis ends a group or a call. -/
def close : List Frame × Skeleton → Option Parsing
  | (.group :: pending, s) => some (.value s pending)
  | (.call function done :: pending, s) => some (.value (.call function (done ++ [s])) pending)
  | _ => none

/-- One token. -/
def step : Parsing → Token → Option Parsing
  | .operand pending, .null => some (.value .null pending)
  | .operand pending, .placeholder => some (.value .placeholder pending)
  | .operand pending, .name n => some (.value (.name n) pending)
  | .operand pending, .unary op =>
    if Frame.level pending ≤ op.strength then some (.operand (.before op :: pending)) else none
  | .operand pending, .opening => some (.operand (.group :: pending))
  | .operand pending, .word function => some (.called function pending)
  | .operand (.call function [] :: pending), .closing => some (.value (.call function []) pending)
  | .called name pending, .opening => some (.operand (.call name [] :: pending))
  | .value s pending, .binary op =>
    let r := Frame.settle op.strength pending s
    some (.operand (.between op r.2 :: r.1))
  | .value s pending, .is =>
    let r := Frame.settle 4 pending s
    some (.is r.2 r.1)
  | .value s pending, .comma => separate (Frame.settle 0 pending s)
  | .value s pending, .closing => close (Frame.settle 0 pending s)
  | .is s pending, .null => some (.value (.nullTest false s) pending)
  | .is s pending, .unary .not => some (.isNot s pending)
  | .isNot s pending, .null => some (.value (.nullTest true s) pending)
  | _, _ => none

/-- The end: an operand, with nothing but operators before it. -/
def result : List Frame × Skeleton → Option Skeleton
  | ([], s) => some s
  | _ => none

/-- Tokens in turn, up to the end. -/
def run : Parsing → List Token → Option Skeleton
  | .value s pending, [] => result (Frame.settle 0 pending s)
  | _, [] => none
  | state, t :: ts => (state.step t).bind fun next => run next ts

/-- What whole tokens are read as. -/
def read? (ts : List Token) : Option Skeleton := run (.operand []) ts

theorem run_cons {state next : Parsing} {t : Token} (h : state.step t = some next)
    (ts : List Token) : state.run (t :: ts) = next.run ts := by
  rw [run, h, Option.bind_some]

theorem run_cons_none {state : Parsing} {t : Token} (h : state.step t = none) (ts : List Token) :
    state.run (t :: ts) = none := by
  rw [run, h, Option.bind_none]

end Parsing

/-! ## 3. Pending operators -/

/-- How tightly the operators before a token have to bind to take the operand before it. -/
def Token.strength? : Token → Option Nat
  | .binary op => some op.strength
  | .is => some 4
  | .comma => some 0
  | .closing => some 0
  | _ => none

/-- Operators that bind as tightly as the level says take an operand before these tokens. -/
def Ends (n : Nat) (r : List Token) : Prop := ∀ t ∈ r.head?, ∃ m ≤ n, t.strength? = some m

theorem Ends.mono {n m : Nat} (h : n ≤ m) {r : List Token} (hr : Ends n r) : Ends m r := by
  intro t ht
  obtain ⟨k, hk, hstrength⟩ := hr t ht
  exact ⟨k, Nat.le_trans hk h, hstrength⟩

theorem ends_nil (n : Nat) : Ends n [] := fun _ h => by cases h

theorem ends_cons {n m : Nat} {t : Token} (ht : t.strength? = some m) (hm : m ≤ n)
    (r : List Token) : Ends n (t :: r) := by
  intro u hu
  cases hu
  exact ⟨m, hm, ht⟩

theorem Phrase.Derives.ends_further {ss : List Skeleton} {us : List Token}
    (h : (Phrase.further ss).Derives us) (n : Nat) (r : List Token) : Ends n (us ++ r) := by
  cases h with
  | noFurther => exact ends_cons rfl (Nat.zero_le n) _
  | further _ _ => exact ends_cons rfl (Nat.zero_le n) _

namespace Frame

variable {n : Nat} {pending : List Frame} {s : Skeleton}

theorem settle_before {op : Expr.UnaryOp} (h : n ≤ op.strength) :
    settle n (.before op :: pending) s = settle n pending (.unary op s) := by
  rw [settle, if_pos h]

theorem settle_between {op : Expr.BinaryOp} {left : Skeleton} (h : n ≤ op.strength) :
    settle n (.between op left :: pending) s = settle n pending (.binary op left s) := by
  rw [settle, if_pos h]

/-- What is pending where an operator may stand does not take its left operand. -/
theorem settle_of_level {op : Expr.BinaryOp} (h : level pending ≤ op.strength) :
    settle op.strength pending s = (pending, s) := by
  match pending with
  | [] => rfl
  | .before op' :: rest =>
    have hlt : op'.strength < op.strength := Nat.lt_of_le_of_ne h (op'.strength_ne op)
    rw [settle, if_neg (Nat.not_le.mpr hlt)]
  | .between op' left :: rest =>
    have hlt : op'.strength < op.strength := h
    rw [settle, if_neg (Nat.not_le.mpr hlt)]
  | .group :: rest => rfl
  | .call function done :: rest => rfl

end Frame

namespace Parsing

variable {pending : List Frame} {s : Skeleton} {n : Nat} {r : List Token}

/-- Only what an operand settles to counts for what follows it. -/
theorem run_value_congr {pending' : List Frame} {s' : Skeleton} (hr : Ends n r)
    (h : ∀ m ≤ n, Frame.settle m pending s = Frame.settle m pending' s') :
    run (.value s pending) r = run (.value s' pending') r := by
  match r, hr with
  | [], _ => rw [run, run, h 0 (Nat.zero_le n)]
  | t :: rest, hr =>
    obtain ⟨m, hm, ht⟩ := hr t rfl
    have hstep : step (.value s pending) t = step (.value s' pending') t := by
      cases t with
      | binary op =>
        cases ht
        simp only [step, h _ hm]
      | is =>
        cases ht
        simp only [step, h _ hm]
      | comma => simp only [step, h 0 (Nat.zero_le n)]
      | closing => simp only [step, h 0 (Nat.zero_le n)]
      | _ => cases ht
    rw [run, run, hstep]

/-- An operator before an operand takes it. -/
theorem run_before {op : Expr.UnaryOp} (hr : Ends op.strength r) :
    run (.value s (.before op :: pending)) r = run (.value (.unary op s) pending) r :=
  run_value_congr hr fun _ hm => Frame.settle_before hm

/-- An operator between two operands takes them. -/
theorem run_between {op : Expr.BinaryOp} {left : Skeleton} (hr : Ends op.strength r) :
    run (.value s (.between op left :: pending)) r = run (.value (.binary op left s) pending) r :=
  run_value_congr hr fun _ hm => Frame.settle_between hm

theorem run_binary {op : Expr.BinaryOp} (h : Frame.level pending ≤ op.strength) (r : List Token) :
    run (.value s pending) (.binary op :: r) = run (.operand (.between op s :: pending)) r := by
  refine run_cons ?_ r
  simp only [step, Frame.settle_of_level h]

theorem run_nullTest (negated : Bool) (h : Frame.level pending ≤ 4) (r : List Token) :
    run (.value s pending) (Skeleton.testTokens negated ++ r) =
      run (.value (.nullTest negated s) pending) r := by
  have his : step (.value s pending) .is = some (.is s pending) := by
    have hsettle : Frame.settle 4 pending s = (pending, s) :=
      @Frame.settle_of_level pending s .equal h
    simp only [step, hsettle]
  cases negated with
  | false => exact (run_cons his _).trans (run_cons rfl r)
  | true => exact (run_cons his _).trans ((run_cons rfl _).trans (run_cons rfl r))

theorem run_unary {op : Expr.UnaryOp} (h : Frame.level pending ≤ op.strength) (r : List Token) :
    run (.operand pending) (.unary op :: r) = run (.operand (.before op :: pending)) r := by
  refine run_cons ?_ r
  rw [step, if_pos h]

end Parsing

/-! ## 4. Derivations -/

open Parsing in
/-- From where the phrase may stand, the machine takes the tokens and has the phrase then. -/
def Phrase.Taken : Phrase → List Token → Prop
  | .expression n s, ts => ∀ pending r, Frame.level pending ≤ n → Ends n r →
      run (.operand pending) (ts ++ r) = run (.value s pending) r
  | .arguments ss, ts => ∀ function pending r,
      run (.operand (.call function [] :: pending)) (ts ++ r) =
        run (.value (.call function ss) pending) r
  | .further ss, ts => ∀ function done s pending r,
      run (.value s (.call function done :: pending)) (ts ++ r) =
        run (.value (.call function (done ++ s :: ss)) pending) r

open Parsing in
/-- **The machine follows every derivation.** -/
theorem Phrase.taken_of_derives {p : Phrase} {ts : List Token} (h : p.Derives ts) : p.Taken ts := by
  induction h with
  | null => exact fun _ r _ _ => run_cons rfl r
  | placeholder => exact fun _ r _ _ => run_cons rfl r
  | name n => exact fun _ r _ _ => run_cons rfl r
  | @parentheses s ts _ ih =>
    intro pending r _ _
    have hinside := ih (.group :: pending) (.closing :: r) (Nat.le_refl 1)
      (ends_cons rfl (Nat.zero_le 1) r)
    rw [List.cons_append, List.append_assoc]
    exact (run_cons rfl _).trans (hinside.trans (run_cons rfl r))
  | call function _ ih =>
    intro pending r _ _
    exact (run_cons rfl _).trans ((run_cons rfl _).trans (ih function pending r))
  | @unary op s ts _ ih =>
    intro pending r hlevel hr
    rw [List.cons_append, run_unary hlevel, ih _ r (Nat.le_refl _) hr, run_before hr]
  | @binary op s t ts us _ _ ihs iht =>
    intro pending r hlevel hr
    have hop : Ends op.strength (.binary op :: (us ++ r)) := ends_cons rfl (Nat.le_refl _) _
    rw [List.append_assoc, List.cons_append, ihs pending _ hlevel hop, run_binary hlevel,
      iht _ r (Nat.le_refl _) (hr.mono (Nat.le_succ _)), run_between hr]
  | @nullTest negated s ts _ ih =>
    intro pending r hlevel hr
    have htest : Ends 4 (Skeleton.testTokens negated ++ r) := by
      cases negated <;> exact ends_cons rfl (Nat.le_refl 4) _
    rw [List.append_assoc, ih pending _ hlevel htest, run_nullTest negated hlevel]
  | looser _ ih =>
    intro pending r hlevel hr
    exact ih pending r (Nat.le_succ_of_le hlevel) (hr.mono (Nat.le_succ _))
  | noArguments => exact fun _ _ r => run_cons rfl r
  | @arguments s ss ts us _ hss ihs ihss =>
    intro function pending r
    rw [List.append_assoc, ihs _ _ (Nat.le_of_eq (Frame.level_call function [] pending))
      (hss.ends_further 1 r), ihss]
    rfl
  | noFurther => exact fun _ _ _ _ r => run_cons rfl r
  | @further s ss ts us _ hss ihs ihss =>
    intro function done t pending r
    have hcomma : run (.value t (.call function done :: pending)) (.comma :: (ts ++ us ++ r)) =
        run (.operand (.call function (done ++ [t]) :: pending)) (ts ++ us ++ r) := run_cons rfl _
    rw [List.cons_append, hcomma, List.append_assoc,
      ihs _ _ (Nat.le_of_eq (Frame.level_call function (done ++ [t]) pending))
        (hss.ends_further 1 r), ihss, List.append_assoc]
    rfl

namespace Skeleton.ReadFrom

variable {s t : Skeleton} {ts : List Token}

theorem read?_eq (h : s.ReadFrom ts) : Parsing.read? ts = some s := by
  have htaken := Phrase.taken_of_derives h [] [] (Nat.le_refl 1) (ends_nil 1)
  rw [List.append_nil] at htaken
  exact htaken

/-- **Tokens can be read as one skeleton at most.** -/
theorem unique (hs : s.ReadFrom ts) (ht : t.ReadFrom ts) : s = t :=
  Option.some.inj (hs.read?_eq.symm.trans ht.read?_eq)

end Skeleton.ReadFrom

end EntityQuery
