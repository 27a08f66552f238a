import EntityQuery.Proofs.Spelling.Tokens
import EntityQuery.Proofs.Terms
import EntityQuery.Query
import Mathlib.Data.List.Forall2

/-!
What a text can say.

* `Reader.Yields` -- every value that a reader gives has a property, with a lemma for each way to
  put readers together;
* `Literal.isSpoken` -- the literals of the grammar: the least integer of a width is none of them;
* `Term.Written`, `Lambda.Written`, `Operator.Written`, `Chain.Written` -- the terms, lambdas,
  operators and chains of the grammar;
* `Term.Productions` -- a property that the productions of the grammar keep;
  `Reader.yields_of_productions` -- **every term that is read has it**;
* `Reader.ArgumentRules` -- a relation between the arguments of operators, kind by kind;
* `Reader.yields_term`, `Reader.yields_chain` -- so readers yield what the grammar has;
* `Chain.written_of_parse` -- so do texts;
* `Lambda.Written.isPlain` -- nothing that is written is bound at a path.
-/
namespace EntityQuery

namespace Reader

/-! ## 1. What readers yield -/

/-- Every value that the reader gives has the property. -/
def Yields {α : Type} (P : α → Prop) (r : Reader α) : Prop :=
  ∀ s a rest, r s = .ok a rest → P a

namespace Yields

variable {α β : Type} {P : α → Prop} {Q : β → Prop} {r : Reader α}

theorem any (r : Reader α) : Yields (fun _ => True) r := fun _ _ _ _ => trivial

theorem pure {a : α} (h : P a) : Yields P (Pure.pure a : Reader α) := by
  intro s b rest hok
  cases hok
  exact h

theorem failAt (place : List Char) (cause : Cause) : Yields P (Reader.failAt place cause) :=
  fun _ _ _ hok => by cases hok

theorem errorAt (place : List Char) (cause : Cause) : Yields P (Reader.errorAt place cause) :=
  fun _ _ _ hok => by cases hok

theorem imp {P' : α → Prop} (hr : Yields P r) (h : ∀ a, P a → P' a) : Yields P' r :=
  fun s a rest hok => h a (hr s a rest hok)

theorem bind {f : α → Reader β} (hr : Yields P r) (hf : ∀ a, P a → Yields Q (f a)) :
    Yields Q (r >>= f) := by
  intro s b rest hok
  rw [bind_apply] at hok
  split at hok
  · rename_i a rest' ha
    exact hf a (hr s a rest' ha) rest' b rest hok
  · cases hok
  · cases hok

/-- The value of the first reader may be any. -/
theorem after {f : α → Reader β} (hf : ∀ a, Yields Q (f a)) : Yields Q (r >>= f) :=
  (any r).bind fun a _ => hf a

theorem map {f : α → β} (hr : Yields P r) (hf : ∀ a, P a → Q (f a)) : Yields Q (f <$> r) :=
  bind hr fun a ha => pure (hf a ha)

theorem cut (hr : Yields P r) : Yields P r.cut := by
  intro s a rest hok
  unfold Reader.cut at hok
  split at hok
  · cases hok
  · exact hr s a rest hok

theorem orElse {r' : Reader α} (hr : Yields P r) (hr' : Yields P r') : Yields P (r.orElse r') := by
  intro s a rest hok
  unfold Reader.orElse at hok
  split at hok
  · split at hok
    · cases hok
    · exact hr' s a rest hok
  · exact hr s a rest hok

theorem firstOf {rs : List (Reader α)} (hr : Yields P r) (hrs : ∀ r' ∈ rs, Yields P r') :
    Yields P (Reader.firstOf r rs) := by
  unfold Reader.firstOf
  induction rs generalizing r with
  | nil => exact hr
  | cons r' rs ih =>
    exact ih (hr.orElse (hrs r' List.mem_cons_self)) fun r'' h => hrs r'' (List.mem_cons_of_mem _ h)

theorem optional (hr : Yields P r) : Yields (fun o => ∀ a ∈ o, P a) r.optional := by
  intro s o rest hok
  unfold Reader.optional at hok
  split at hok
  · rename_i a _ ha
    cases hok
    intro b hb
    cases hb
    exact hr s a rest ha
  · cases hok
    intro b hb
    cases hb
  · cases hok

theorem iterateAtMost {step : α → Reader α} (hstep : ∀ a, P a → Yields P (step a)) (n : Nat) {a : α}
    (ha : P a) : Yields P (Reader.iterateAtMost step n a) := by
  induction n generalizing a with
  | zero => exact pure ha
  | succ n ih =>
    intro s b rest hok
    simp only [Reader.iterateAtMost] at hok
    split at hok
    · rename_i c rest' hc
      exact ih (hstep a ha s c rest' hc) rest' b rest hok
    · cases hok
      exact ha
    · cases hok

/-- What every step keeps, the repetition keeps. -/
theorem iterate {step : α → Reader α} (hstep : ∀ a, P a → Yields P (step a)) {a : α} (ha : P a) :
    Yields P (Reader.iterate step a) := fun s => iterateAtMost hstep s.length ha s

theorem itemsAfter {separator : Reader Unit} (hr : Yields P r) {first : α} (h : P first) :
    Yields (fun items => items ≠ [] ∧ ∀ a ∈ items, P a) (Reader.itemsAfter separator r first) := by
  refine iterate (fun items hitems => ?_) ⟨by simp, fun a ha => List.mem_singleton.mp ha ▸ h⟩
  refine after fun _ => hr.bind fun a ha => pure ⟨by simp, fun b hb => ?_⟩
  rcases List.mem_append.mp hb with hb | hb
  · exact hitems.2 b hb
  · exact List.mem_singleton.mp hb ▸ ha

theorem separated₁ {separator : Reader Unit} (hr : Yields P r) :
    Yields (fun items => items ≠ [] ∧ ∀ a ∈ items, P a) (Reader.separated₁ separator r) :=
  hr.bind fun _ ha => hr.itemsAfter ha

theorem separated {separator : Reader Unit} (hr : Yields P r) :
    Yields (fun items => ∀ a ∈ items, P a) (Reader.separated separator r) := by
  refine hr.optional.bind fun first hfirst => ?_
  cases first with
  | none => exact pure fun _ h => absurd h List.not_mem_nil
  | some a =>
    intro s items rest hok
    exact (hr.itemsAfter (hfirst a rfl) s items rest hok).2

theorem between {opening closing : Reader Unit} (hr : Yields P r) :
    Yields P (Reader.between opening r closing) :=
  after fun _ => hr.bind fun _ ha => after fun _ => pure ha

end Yields

end Reader

/-! ## 2. The grammar -/

/-- A literal that a text can say: digits spell no negative number, and the least integer of a width
    is the negative of none. -/
def Literal.isSpoken : Literal → Bool
  | .int32 n => n ≠ Int32.minValue
  | .int64 n => n ≠ Int64.minValue
  | _ => true

/-- The terms that a text can say. -/
inductive Term.Written : Term → Prop where
  | literal {v : Literal} (h : v.isSpoken = true) : Written (.ofLiteral v)
  | null : Written (.null .object)
  | parameter (name : String) : Written (.parameter name)
  | member {target : Term} (h : Written target) (label : String) : Written (.member target label)
  | call {receiver : Term} {arguments : List Term} (hr : Written receiver) (label : String)
      (ha : ∀ t ∈ arguments, Written t) : Written (.call receiver ⟨none, label⟩ arguments)
  | object {members : List (String × Term)} (hne : members ≠ []) (h : ∀ m ∈ members, Written m.2) :
      Written (.object members)
  | binary (op : BinaryOp) {left right : Term} (hl : Written left) (hr : Written right) :
      Written (.binary op left right)
  | not {t : Term} (h : Written t) : Written (.unary .not t)
  | negate {t : Term} (h : Written t)
      (hn : ∀ v type, t = .constant (some v) type → v.neg? = none) : Written (.unary .negate t)
  | plus {t : Term} (h : Written t) : Written (.unary .plus t)
  | convert (type : ValueType) {t : Term} (h : Written t) : Written (.unary (.convert type) t)

/-- The lambdas that a text can say: calls on names other than the parameter are calls on types. -/
def Lambda.Written (l : Lambda) : Prop :=
  ∃ body : Term, body.Written ∧ l.body = body.withOwners l.parameter

/-- The operators that a text can say after the entity of a chain. -/
inductive Operator.Written : Operator → Prop where
  | filter {l : Lambda} (h : l.Written) : Written (.filter l)
  | project {l : Lambda} (h : l.Written) : Written (.project l)
  | order (continued : Bool) {l : Lambda} (h : l.Written) (ascending : Bool) :
      Written (.order continued l ascending)
  | overRows (kind : RowOperator) {l : Lambda} (h : l.Written) : Written (.overRows kind l)
  | aggregate (kind : Aggregate) {l : Option Lambda} (h : ∀ k ∈ l, k.Written) :
      Written (.aggregate kind l)
  | pick (kind : Pick) {l : Option Lambda} (h : ∀ k ∈ l, k.Written) (orDefault : Bool) :
      Written (.pick kind l orDefault)
  | elementAt {t : Term} (h : t.Written) (orDefault : Bool) : Written (.elementAt t orDefault)
  | withTerm (kind : TermOperator) {t : Term} (h : t.Written) : Written (.withTerm kind t)
  | defaultIfEmpty {t : Option Term} (h : ∀ u ∈ t, u.Written) : Written (.defaultIfEmpty t)
  | plain (kind : PlainOperator) : Written (.plain kind)
  | combine (kind : Combination) (entity : String) {ops : List Operator}
      (h : ∀ op ∈ ops, Written op) : Written (.combine kind (.source entity :: ops))
  | join (grouped : Bool) (entity : String) {ops : List Operator} (h : ∀ op ∈ ops, Written op)
      {outerKey innerKey result : Lambda} (ho : outerKey.Written) (hi : innerKey.Written)
      (hr : result.Written) : Written (.join grouped (.source entity :: ops) outerKey innerKey result)
  | typed (kind : TypeOperator) (type : ValueType) : Written (.typed kind type)

/-- The chains that a text can say: an entity, then operators. -/
def Chain.Written (chain : Chain) : Prop :=
  ∃ entity ops, chain = .source entity :: ops ∧ ∀ op ∈ ops, Operator.Written op

/-! ## 3. Terms -/

namespace Literal

theorem int32_ofNat_ne_minValue {n : Nat} (h : n < twoPow 31) : Int32.ofNat n ≠ Int32.minValue := by
  intro heq
  have hn : (Int32.ofNat n).toInt = n := Int32.toInt_ofNat_of_lt h
  have hmin : Int32.minValue.toInt = -2147483648 := rfl
  rw [heq, hmin] at hn
  omega

theorem int64_ofNat_ne_minValue {n : Nat} (h : n < twoPow 63) : Int64.ofNat n ≠ Int64.minValue := by
  intro heq
  have hn : (Int64.ofNat n).toInt = n := Int64.toInt_ofNat_of_lt h
  have hmin : Int64.minValue.toInt = -9223372036854775808 := rfl
  rw [heq, hmin] at hn
  omega

theorem isSpoken_of_ofNumber? {whole : List Char} {fraction : Option (List Char)}
    {suffix : Option Char} {v : Literal} (h : ofNumber? whole fraction suffix = some v) :
    v.isSpoken = true := by
  have h32 : ∀ {ds n}, int32OfDigits? ds = some n → (Literal.int32 n).isSpoken = true := by
    intro ds n hn
    unfold int32OfDigits? at hn
    simp only at hn
    split at hn
    · rename_i hlt
      cases hn
      exact decide_eq_true (int32_ofNat_ne_minValue hlt)
    · cases hn
  have h64 : ∀ {ds n}, int64OfDigits? ds = some n → (Literal.int64 n).isSpoken = true := by
    intro ds n hn
    unfold int64OfDigits? at hn
    simp only at hn
    split at hn
    · rename_i hlt
      cases hn
      exact decide_eq_true (int64_ofNat_ne_minValue hlt)
    · cases hn
  unfold ofNumber? at h
  simp only at h
  split at h
  · obtain ⟨n, hn, rfl⟩ := Option.map_eq_some_iff.mp h
    exact h64 hn
  · obtain ⟨d, _, rfl⟩ := Option.map_eq_some_iff.mp h
    rfl
  · cases h
    rfl
  · cases h
    rfl
  · cases h
    rfl
  · -- without a suffix the narrower width comes first
    cases hnarrow : int32OfDigits? whole with
    | some n =>
      rw [hnarrow] at h
      cases h
      exact h32 hnarrow
    | none =>
      rw [hnarrow] at h
      obtain ⟨n, hn, rfl⟩ := Option.map_eq_some_iff.mp h
      exact h64 hn
  · cases h

/-- The negative of a number is not the least integer, which has no negative itself. -/
theorem isSpoken_of_neg? {v w : Literal} (h : v.neg? = some w) : w.isSpoken = true := by
  unfold neg? at h
  split at h
  · rename_i n
    split at h
    · cases h
    · rename_i hn
      cases h
      refine decide_eq_true fun heq => hn ?_
      rw [← Int32.neg_neg (a := n), heq]
      rfl
  · rename_i n
    split at h
    · cases h
    · rename_i hn
      cases h
      refine decide_eq_true fun heq => hn ?_
      rw [← Int64.neg_neg (a := n), heq]
      rfl
  · cases h
    rfl
  · cases h
    rfl
  · cases h

end Literal

/-- A minus before anything but a number is an operator. -/
theorem Term.negated_of_not_isNumber {t : Term} (h : t.isNumber = false) :
    t.negated = .unary .negate t := by
  cases t with
  | constant value type =>
    cases value with
    | none => rfl
    | some v =>
      have hv : v.isNumber = false := h
      have hneg : v.neg? = none := by
        cases v <;> first | rfl | cases hv
      simp only [negated, hneg]
  | _ => rfl

theorem Term.Written.negated {t : Term} (h : t.Written) : t.negated.Written := by
  unfold Term.negated
  split
  · split
    · rename_i hneg
      exact .literal (Literal.isSpoken_of_neg? hneg)
    · rename_i hnone
      refine .negate h fun v type heq => ?_
      cases heq
      exact hnone
  · rename_i hconstant
    exact .negate h fun v type heq => absurd heq (hconstant v type)

/-! ## 4. Productions -/

namespace Term

/-- A node whose parameter or labels are names. -/
def isNamed : Term → Bool
  | .parameter name => isName name
  | .member _ label => isName label
  | .object members => members.all fun m => isName m.1
  | _ => true

/-- The productions of the grammar keep a property: its atoms have it, and so has what is put
    together from terms that have it. Parameters and labels are names; a member of an object that
    takes its label from its value is no exception. -/
structure Productions (P : Term → Prop) : Prop where
  literal : ∀ {v : Literal}, v.isSpoken = true → P (.ofLiteral v)
  null : P (.null .object)
  parameter : ∀ {name : String}, isName name = true → P (.parameter name)
  member : ∀ {t : Term} {label : String}, P t → isName label = true → P (.member t label)
  call : ∀ {t : Term} {label : String} {arguments : List Term}, P t → isName label = true →
    (∀ u ∈ arguments, P u) → P (.call t ⟨none, label⟩ arguments)
  object : ∀ {members : List (String × Term)}, members ≠ [] →
    (∀ m ∈ members, isName m.1 = true ∧ P m.2) → P (.object members)
  ownLabel : ∀ {t : Term} {label : String}, P t → t.ownLabel? = some label → isName label = true
  binary : ∀ (op : BinaryOp) {t u : Term}, P t → P u → P (.binary op t u)
  not : ∀ {t : Term}, P t → P (.unary .not t)
  negated : ∀ {t : Term}, P t → P t.negated
  plus : ∀ {t : Term}, P t → P (.unary .plus t)
  convert : ∀ (type : ValueType) {t : Term}, P t → P (.unary (.convert type) t)

theorem isNamed_negated {t : Term} (h : t.every isNamed = true) :
    t.negated.every isNamed = true := by
  unfold negated
  split
  · split <;> rfl
  · exact h

/-- The terms of the grammar are put together by its productions, with names for all labels. -/
theorem productions_written : Productions fun t => t.Written ∧ t.every isNamed = true where
  literal h := ⟨.literal h, rfl⟩
  null := ⟨.null, rfl⟩
  parameter h := ⟨.parameter _, h⟩
  member ht hlabel := ⟨.member ht.1 _, by simp [every, isNamed, hlabel, ht.2]⟩
  call ht _ hargs := ⟨.call ht.1 _ fun u hu => (hargs u hu).1, by
    simp [every, isNamed, ht.2, everyIn_iff.mpr fun u hu => (hargs u hu).2]⟩
  object hne hmembers := by
    refine ⟨.object hne fun m hm => (hmembers m hm).2.1, ?_⟩
    rw [every, Bool.and_eq_true, everyMember_iff]
    exact ⟨List.all_eq_true.mpr fun m hm => (hmembers m hm).1, fun m hm => (hmembers m hm).2.2⟩
  ownLabel {t label} ht hlabel := by
    cases t with
    | member target l =>
      cases hlabel
      have hnamed := ht.2
      simp only [every, Bool.and_eq_true] at hnamed
      exact hnamed.1
    | parameter name =>
      cases hlabel
      exact ht.2
    | _ => cases hlabel
  binary op _ _ ht hu := ⟨.binary op ht.1 hu.1, by simp [every, isNamed, ht.2, hu.2]⟩
  not ht := ⟨.not ht.1, ht.2⟩
  negated ht := ⟨ht.1.negated, isNamed_negated ht.2⟩
  plus ht := ⟨.plus ht.1, ht.2⟩
  convert type _ ht := ⟨.convert type ht.1, ht.2⟩

end Term

namespace Reader

theorem yields_name : Yields (fun n => isName n = true) name := by
  intro s n rest hok
  unfold name at hok
  split at hok
  · split at hok
    · rename_i c cs _ hstart
      cases hok
      simp only [isName, String.toList_ofList, hstart, Bool.true_and]
      exact List.all_takeWhile
    · cases hok
  · cases hok

theorem yields_memberLabel : Yields (fun label => isName label = true) memberLabel := by
  refine yields_name.bind fun label hlabel => .after fun _ => .after fun s => ?_
  split
  · split
    · exact .errorAt _ _
    · exact .pure hlabel
  · exact .pure hlabel

section Productions

variable {P : Term → Prop} (hP : Term.Productions P)

include hP

theorem yields_number : Yields P number := by
  intro s t rest hok
  unfold number at hok
  simp only at hok
  split at hok
  · cases hok
  · split at hok
    · rename_i hliteral
      cases hok
      exact hP.literal (Literal.isSpoken_of_ofNumber? hliteral)
    · cases hok

theorem yields_stringLiteral : Yields P stringLiteral := .after fun _ => .pure (hP.literal rfl)

theorem yields_charLiteral : Yields P charLiteral := by
  refine .after fun start => .after fun cs => ?_
  split
  · exact .pure (hP.literal rfl)
  · exact .failAt _ _

theorem yields_binaryLevel (ops : List BinaryOp) {operand : Reader Term} (h : Yields P operand) :
    Yields P (binaryLevel ops operand) :=
  h.bind fun _ hfirst => .iterate (fun _ hleft => .after fun op =>
    h.cut.bind fun _ hright => .pure (hP.binary op hleft hright)) hfirst

theorem yields_binaryLevels {operand : Reader Term} (h : Yields P operand) :
    Yields P (binaryLevels operand) := by
  unfold binaryLevels
  induction levels with
  | nil => exact h
  | cons ops rest ih => exact yields_binaryLevel hP ops ih

section Nested

variable {term access : Reader Term} (ht : Yields P term) (ha : Yields P access)

include ht ha

theorem yields_objectMember :
    Yields (fun m => isName m.1 = true ∧ P m.2) (objectMember term access) := by
  intro s m rest hok
  unfold objectMember at hok
  -- without a label of its own, a member takes that of its value
  split at hok
  · rename_i label rest' hlabel
    have hlabelled : Yields (fun m : String × Term => isName m.1 = true ∧ P m.2) (do
        let t ← cut term
        return (label, t)) :=
      ht.cut.bind fun _ h => .pure ⟨yields_memberLabel s label rest' hlabel, h⟩
    exact hlabelled rest' m rest hok
  · refine (ha.bind fun t h => ?_ :
      Yields (fun m : String × Term => isName m.1 = true ∧ P m.2) _) s m rest hok
    split
    · rename_i hlabel
      exact .pure ⟨hP.ownLabel h hlabel, h⟩
    · exact .failAt _ _

theorem yields_object : Yields P (object term access) :=
  ((yields_objectMember hP ht ha).separated₁.between).bind fun _ h => .pure (hP.object h.1 h.2)

theorem yields_word : Yields P (word term access) := by
  refine yields_name.bind fun w hw => ?_
  split
  · exact .pure (hP.literal rfl)
  · split
    · exact .pure (hP.literal rfl)
    · split
      · exact .pure hP.null
      · split
        · exact yields_object hP ht ha
        · exact .pure (hP.parameter hw)

theorem yields_atom : Yields P (atom term access) := by
  refine (yields_number hP).firstOf fun r hr => ?_
  simp only [List.mem_cons, List.not_mem_nil, or_false] at hr
  rcases hr with rfl | rfl | rfl | rfl
  · exact yields_stringLiteral hP
  · exact yields_charLiteral hP
  · exact ht.between
  · exact yields_word hP ht ha

theorem yields_accesses : Yields P (accesses term access) := by
  refine (yields_atom hP ht ha).bind fun _ hfirst => .iterate (fun target htarget => ?_) hfirst
  refine .after fun _ => yields_name.bind fun label hlabel =>
    (ht.separated.between.optional).bind fun args hargs => ?_
  cases args with
  | none => exact .pure (hP.member htarget hlabel)
  | some args => exact .pure (hP.call htarget hlabel (hargs args rfl))

end Nested

theorem yields_nested (n : Nat) :
    Yields P (Grammar.nested n).unary ∧ Yields P (Grammar.nested n).access := by
  induction n with
  | zero =>
    constructor
    · intro s t rest hok
      cases hok
    · intro s t rest hok
      cases hok
  | succ n ih =>
    -- the readers of a depth are put together from those one depth down
    obtain ⟨hunary, haccess⟩ := ih
    have hnext := yields_accesses hP (yields_binaryLevels hP hunary) haccess
    have hsigned : ∀ token build, (∀ t : Term, P t → P (build t)) →
        Yields P (signed token (Grammar.nested n).unary build) := fun _ _ hbuild =>
      .after fun _ => hunary.cut.bind fun t h => .pure (hbuild t h)
    refine ⟨(hsigned "!" _ fun _ h => hP.not h).firstOf fun r hr => ?_, hnext⟩
    simp only [List.mem_cons, List.not_mem_nil, or_false] at hr
    rcases hr with rfl | rfl | rfl | rfl
    · exact hsigned "-" _ fun _ h => hP.negated h
    · exact hsigned "+" _ fun _ h => hP.plus h
    · exact .after fun type => hunary.bind fun _ h => .pure (hP.convert type h)
    · exact hnext

/-- **What the productions keep holds of every term that is read.** -/
theorem yields_of_productions : Yields P term :=
  fun s => yields_binaryLevels hP (yields_nested hP (s.length + 1)).1 s

end Productions

/-- **A term that is read is one of the grammar.** -/
theorem yields_term : Yields Term.Written term :=
  (yields_of_productions Term.productions_written).imp fun _ h => h.1

/-- **All labels and parameters in a term that is read are names.** -/
theorem yields_named_term : Yields (fun t => t.every Term.isNamed = true) term :=
  (yields_of_productions Term.productions_written).imp fun _ h => h.2

theorem yields_lambda : Yields Lambda.Written lambda :=
  .after fun _ => .after fun _ => yields_term.cut.bind fun body h => .pure ⟨body, h, rfl⟩

/-! ## 5. Operators and chains -/

/-- A relation between readers of arguments holds for the operators of every kind, each compared
    with itself; the readers of the chains inside may differ. -/
structure ArgumentRules (R : Reader Operator → Reader Operator → Prop)
    (chain chain' : Reader Chain) : Prop where
  filter : R (lambdaFor .filter) (lambdaFor .filter)
  project : R (lambdaFor .project) (lambdaFor .project)
  overRows : ∀ kind, R (lambdaFor (.overRows kind)) (lambdaFor (.overRows kind))
  order : ∀ continued ascending,
    R (lambdaFor (.order continued · ascending)) (lambdaFor (.order continued · ascending))
  aggregate : ∀ kind, R (lambdaMaybe (.aggregate kind)) (lambdaMaybe (.aggregate kind))
  pick : ∀ kind orDefault,
    R (lambdaMaybe (.pick kind · orDefault)) (lambdaMaybe (.pick kind · orDefault))
  elementAt : ∀ orDefault, R (termFor (.elementAt · orDefault)) (termFor (.elementAt · orDefault))
  withTerm : ∀ kind, R (termFor (.withTerm kind)) (termFor (.withTerm kind))
  defaultIfEmpty :
    R (Operator.defaultIfEmpty <$> optional term) (Operator.defaultIfEmpty <$> optional term)
  plain : ∀ kind, R (Reader.pure (.plain kind)) (Reader.pure (.plain kind))
  combine : ∀ kind, R (Operator.combine kind <$> cut chain) (Operator.combine kind <$> cut chain')
  join : ∀ grouped, R (joinArguments chain grouped) (joinArguments chain' grouped)

namespace ArgumentRules

variable {R : Reader Operator → Reader Operator → Prop} {chain chain' : Reader Chain}

theorem forall₂_table (h : ArgumentRules R chain chain') :
    List.Forall₂ (fun entry entry' => entry.1 = entry'.1 ∧ R entry.2 entry'.2)
      (argumentTable chain) (argumentTable chain') := by
  simp only [argumentTable, List.map_cons, List.map_nil, List.cons_append, List.nil_append,
    List.forall₂_cons, List.forall₂_nil_left_iff, and_true, h.filter, h.project, h.overRows,
    h.order, h.aggregate, h.pick, h.elementAt, h.withTerm, h.defaultIfEmpty, h.plain, h.combine,
    h.join]

/-- Under every name there are arguments for both or for neither, and they are related. -/
theorem argumentsOf? (h : ArgumentRules R chain chain') (name : String) :
    Option.Rel R (chain.argumentsOf? name) (chain'.argumentsOf? name) := by
  have htables := h.forall₂_table
  unfold Reader.argumentsOf?
  generalize chain.argumentTable = table, chain'.argumentTable = table' at htables ⊢
  induction htables with
  | nil => exact .none
  | @cons entry entry' _ _ hentry _ ih =>
    obtain ⟨n, r⟩ := entry
    obtain ⟨n', r'⟩ := entry'
    obtain ⟨heq, hr⟩ := hentry
    cases heq
    by_cases hname : name = n
    · simp only [List.lookup_cons, hname, beq_self_eq_true]
      exact .some hr
    · simp only [List.lookup_cons, beq_eq_false_iff_ne.mpr hname]
      exact ih

end ArgumentRules

section Operators

variable {P : Operator → Prop} {chain : Reader Chain} (htyped : ∀ kind type, P (.typed kind type))
  (hP : ArgumentRules (fun r _ => Yields P r) chain chain)

include htyped hP

theorem yields_operatorArguments (start : List Char) (name : String) (type : Option ValueType) :
    Yields P (operatorArguments chain start name type) := by
  have hnamed := hP.argumentsOf? name
  unfold operatorArguments
  split
  · rename_i kind _
    split
    · exact .pure (htyped kind _)
    · exact .failAt _ _
  · rename_i r _ hr
    rw [hr] at hnamed
    cases hnamed with
    | some hr =>
      refine hr.bind fun op hop => ?_
      split
      · exact .failAt _ _
      · exact .pure hop
  · exact .failAt _ _

theorem yields_operator : Yields P (operator chain) :=
  .after fun _ => .after fun _ => .after fun _ => .after fun _ =>
    (yields_operatorArguments htyped hP _ _ _).bind fun _ hop => .after fun _ => .pure hop

end Operators

/-- A chain is an entity and then operators. -/
theorem yields_chainAt_succ {P : Operator → Prop} {n : Nat} (h : Yields P (operator (chainAt n))) :
    Yields (fun chain => ∃ entity ops, chain = .source entity :: ops ∧ ∀ op ∈ ops, P op)
      (chainAt (n + 1)) := by
  refine .after fun entity => .iterate (fun chain hchain => ?_)
    ⟨entity, [], rfl, fun _ h => absurd h List.not_mem_nil⟩
  obtain ⟨entity, ops, rfl, hops⟩ := hchain
  refine .after fun _ => h.bind fun op hop => .pure ?_
  refine ⟨entity, ops ++ [op], rfl, fun op' hop' => ?_⟩
  rcases List.mem_append.mp hop' with hop' | hop'
  · exact hops op' hop'
  · exact List.mem_singleton.mp hop' ▸ hop

theorem yields_joinArguments {chain : Reader Chain} (hc : Yields Chain.Written chain)
    (grouped : Bool) : Yields Operator.Written (joinArguments chain grouped) := by
  refine Yields.cut (hc.bind fun inner hinner => ?_)
  obtain ⟨entity, ops, rfl, hops⟩ := hinner
  exact .after fun _ => yields_lambda.bind fun _ ho => .after fun _ =>
    yields_lambda.bind fun _ hi => .after fun _ => yields_lambda.bind fun _ hr =>
      .pure (.join grouped entity hops ho hi hr)

/-- Whatever its kind, the arguments of an operator make an operator of the grammar. -/
theorem argumentRules_written {chain : Reader Chain} (hc : Yields Chain.Written chain) :
    ArgumentRules (fun r _ => Yields Operator.Written r) chain chain where
  filter := yields_lambda.cut.map fun _ h => .filter h
  project := yields_lambda.cut.map fun _ h => .project h
  overRows kind := yields_lambda.cut.map fun _ h => .overRows kind h
  order continued ascending := yields_lambda.cut.map fun _ h => .order continued h ascending
  aggregate kind := yields_lambda.optional.map fun _ h => .aggregate kind h
  pick kind orDefault := yields_lambda.optional.map fun _ h => .pick kind h orDefault
  elementAt orDefault := yields_term.cut.map fun _ h => .elementAt h orDefault
  withTerm kind := yields_term.cut.map fun _ h => .withTerm kind h
  defaultIfEmpty := yields_term.optional.map fun _ h => .defaultIfEmpty h
  plain kind := .pure (.plain kind)
  combine kind := hc.cut.map fun other hother => by
    obtain ⟨entity, ops, rfl, hops⟩ := hother
    exact .combine kind entity hops
  join := yields_joinArguments hc

theorem yields_chainAt (n : Nat) : Yields Chain.Written (chainAt n) := by
  induction n with
  | zero =>
    intro s chain rest hok
    cases hok
  | succ n ih => exact yields_chainAt_succ (yields_operator .typed (argumentRules_written ih))

/-- **A chain that is read is one of the grammar.** -/
theorem yields_chain : Yields Chain.Written chain := fun s => yields_chainAt (s.length + 1) s

theorem readAll_ok {α : Type} {P : α → Prop} {r : Reader α} (hr : Yields P r) {text : String}
    {a : α} (h : r.readAll text = .ok a) : P a := by
  unfold readAll at h
  simp only at h
  split at h
  · rename_i b rest hb
    split at h
    · cases h
      exact hr text.toList a rest hb
    · cases h
  · cases h
  · cases h

end Reader

/-- **A chain that a text says is one of the grammar.** -/
theorem Chain.written_of_parse {text : String} {chain : Chain} (h : Chain.parse text = .ok chain) :
    chain.Written := by
  unfold Chain.parse at h
  split at h
  · rename_i hread
    cases h
    exact Reader.readAll_ok Reader.yields_chain hread
  · cases h

/-! ## 6. Plain terms -/

theorem Term.Written.isPlain {t : Term} (h : t.Written) : t.isPlain = true := by
  unfold Term.isPlain
  induction h with
  | literal _ => rfl
  | null => rfl
  | parameter _ => rfl
  | member _ _ ih => exact ih
  | call _ _ _ ihr iha => simp [every, isNoPlace, ihr, everyIn_iff.mpr iha]
  | object _ _ ih => simp [every, isNoPlace, everyMember_iff.mpr ih]
  | binary _ _ _ ihl ihr => simp [every, isNoPlace, ihl, ihr]
  | not _ ih => exact ih
  | negate _ _ ih => exact ih
  | plus _ ih => exact ih
  | convert _ _ ih => exact ih

namespace Term

theorem withOwnersAll_eq_map (param : String) (ts : List Term) :
    withOwnersAll param ts = ts.map (withOwners param) := by
  induction ts with
  | nil => rfl
  | cons t ts ih => rw [withOwnersAll, ih, List.map_cons]

theorem withOwnersIn_eq_map (param : String) (ms : List (String × Term)) :
    withOwnersIn param ms = ms.map fun m => (m.1, withOwners param m.2) := by
  induction ms with
  | nil => rfl
  | cons m ms ih =>
    rw [withOwnersIn, ih]
    rfl

theorem withOwners_call_of_ne {param : String} {receiver : Term}
    (h : ∀ name, receiver ≠ .parameter name) (method : Method) (arguments : List Term) :
    withOwners param (.call receiver method arguments) =
      .call (withOwners param receiver) method (arguments.map (withOwners param)) := by
  rw [withOwners.eq_2 _ _ _ _ h, withOwnersAll_eq_map]

/-- A test that a node still passes when calls in it become calls on types, every node passes
    then. -/
theorem every_withOwners {test : Term → Bool} {param : String}
    (htest : ∀ t, test t = true → test (withOwners param t) = true) {t : Term}
    (h : t.every test = true) : (t.withOwners param).every test = true := by
  induction t with
  | constant _ _ | parameter _ | lambda _ _ _ | entity _ _ | binding _ => exact h
  | member target label ih =>
    simp only [every, Bool.and_eq_true] at h
    have hnode := htest _ h.1
    simp only [withOwners, every, Bool.and_eq_true] at hnode ⊢
    exact ⟨hnode, ih h.2⟩
  | unary op operand ih =>
    simp only [every, Bool.and_eq_true] at h
    have hnode := htest _ h.1
    simp only [withOwners, every, Bool.and_eq_true] at hnode ⊢
    exact ⟨hnode, ih h.2⟩
  | binary op left right ihl ihr =>
    simp only [every, Bool.and_eq_true] at h
    have hnode := htest _ h.1.1
    simp only [withOwners, every, Bool.and_eq_true] at hnode ⊢
    exact ⟨⟨hnode, ihl h.1.2⟩, ihr h.2⟩
  | call receiver method arguments ihr iha =>
    simp only [every, Bool.and_eq_true, everyIn_iff] at h
    have hnode := htest _ h.1.1
    have hargs : ∀ t ∈ arguments.map (withOwners param), t.every test = true :=
      List.forall_mem_map.mpr fun t ht => iha t ht (h.2 t ht)
    by_cases hname : ∃ name, receiver = .parameter name
    · obtain ⟨name, rfl⟩ := hname
      rw [withOwners, withOwnersAll_eq_map] at hnode ⊢
      split at hnode
      · rename_i hparam
        simp only [hparam, if_true, every, Bool.and_eq_true, everyIn_iff] at hnode ⊢
        rw [hparam] at h
        exact ⟨⟨hnode, h.1.2⟩, hargs⟩
      · rename_i hparam
        simp only [hparam, if_false, every, Bool.and_eq_true, everyIn_iff] at hnode ⊢
        exact ⟨hnode, hargs⟩
    · have hreceiver : ∀ name, receiver ≠ .parameter name := fun name heq => hname ⟨name, heq⟩
      rw [withOwners_call_of_ne hreceiver] at hnode ⊢
      simp only [every, Bool.and_eq_true, everyIn_iff]
      exact ⟨⟨hnode, ihr h.1.2⟩, hargs⟩
  | ownerCall method arguments iha =>
    simp only [every, Bool.and_eq_true, everyIn_iff] at h
    have hnode := htest _ h.1
    simp only [withOwners, withOwnersAll_eq_map, every, Bool.and_eq_true, everyIn_iff] at hnode ⊢
    exact ⟨hnode, List.forall_mem_map.mpr fun t ht => iha t ht (h.2 t ht)⟩
  | object members ih =>
    simp only [every, Bool.and_eq_true, everyMember_iff] at h
    have hnode := htest _ h.1
    simp only [withOwners, withOwnersIn_eq_map, every, Bool.and_eq_true, everyMember_iff] at hnode ⊢
    exact ⟨hnode, List.forall_mem_map.mpr fun m hm => ih m hm (h.2 m hm)⟩
  | conditional test whenTrue whenFalse iht ihw ihf =>
    simp only [every, Bool.and_eq_true] at h
    have hnode := htest _ h.1.1.1
    simp only [withOwners, every, Bool.and_eq_true] at hnode ⊢
    exact ⟨⟨⟨hnode, iht h.1.1.2⟩, ihw h.1.2⟩, ihf h.2⟩

theorem isNoPlace_withOwners (param : String) {t : Term} (h : t.isNoPlace = true) :
    (t.withOwners param).isNoPlace = true := by
  cases t with
  | call receiver method arguments =>
    cases receiver with
    | parameter name =>
      rw [withOwners]
      split <;> rfl
    | _ => rfl
  | entity name path => cases h
  | binding path => cases h
  | _ => rfl

/-- Calls on types are no places either. -/
theorem isPlain_withOwners (param : String) {t : Term} (h : t.isPlain = true) :
    (t.withOwners param).isPlain = true := by
  have htest : ∀ t : Term, t.isNoPlace = true → (t.withOwners param).isNoPlace = true :=
    fun _ => isNoPlace_withOwners param
  exact every_withOwners htest h

end Term

/-- **Nothing that is written is bound at a path.** -/
theorem Lambda.Written.isPlain {l : Lambda} (h : l.Written) : l.body.isPlain = true := by
  obtain ⟨body, hbody, heq⟩ := h
  rw [heq]
  exact Term.isPlain_withOwners l.parameter hbody.isPlain

/-- The selectors of a chain that is written are written. -/
theorem Chain.Written.selector {chain : Chain} (h : chain.Written) {l : Lambda}
    (hl : Operator.project l ∈ chain) : l.Written := by
  obtain ⟨entity, ops, rfl, hops⟩ := h
  rcases List.mem_cons.mp hl with hl | hl
  · cases hl
  · cases hops _ hl with
    | project h => exact h

end EntityQuery
