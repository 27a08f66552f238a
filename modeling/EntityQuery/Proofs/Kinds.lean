import EntityQuery.Proofs.Placeholders

/-!
What a term is, and how the expression for it is stored.

A constant takes the mapping of what it is compared with, and an operation has the mapping of its
first operand. So a truth value that is compared with an operation is stored as what that operation
begins with, and nothing else is stored otherwise than its own type says.

* `Kind` -- what a term is by its parts; `Model.kinds` -- reading terms as their kinds;
* `KeepsType` -- a constant is stored as its own type says;
* `Expr.comparesFlag` -- a truth value is compared with an operation that is stored otherwise;
* `Expr.OfKind` -- how type and mapping of an expression agree with the kind of its term, and which
  of its constants lose their types;
* `Expr.OfKind.ofUnary`, `join`, `compare`, `call` -- **each way to build an expression keeps
  this**.
-/
namespace EntityQuery

/-! ## 1. Kinds -/

/-- What a term is: null, or a value of a type. -/
inductive Kind where
  | null
  | of (type : ValueType)
  deriving DecidableEq

namespace Kind

/-- How values of the kind are stored. -/
def stored? : Kind → Option StoreType
  | .null => none
  | .of type => some type.stored

/-- Values that are stored alike can be compared, and anything with null. -/
def comparable : Kind → Kind → Bool
  | .of a, .of b => a.stored = b.stored
  | _, _ => true

/-- An operator before an operand: NOT is a truth value, a cast what it says, a sign changes
    nothing. -/
def unary : UnaryOp → Kind → Option Kind
  | .not, _ => some (.of .bool)
  | .negate, k | .negateChecked, k | .plus, k => some k
  | .convert target, _ => some (.of target)
  | .complement, _ | .arrayLength, _ => none

/-- An operator between operands is a truth value; a comparison needs operands that can be
    compared. -/
def binary (op : BinaryOp) (a b : Kind) : Option Kind :=
  op.lowered?.bind fun op => if op.isLogical || a.comparable b then some (.of .bool) else none

/-- A call on a text, with a text or a character, is a truth value. -/
def call : Kind → Method → Kind → Option Kind
  | .of .string, method, .of argument =>
    if (method.name = "StartsWith" || method.name = "Contains") && CallRule.isTextual argument then
      some (.of .bool)
    else none
  | _, _, _ => none

/-- A call needs operands that are stored as texts. -/
theorem call_cases {a b k : Kind} {method : Method} (h : call a method b = some k) :
    k = .of .bool ∧ a.stored? = some .text ∧ b.stored? = some .text := by
  unfold call at h
  split at h
  · split at h
    · rename_i argument hargument
      cases h
      have htextual := (Bool.and_eq_true_iff.mp hargument).2
      refine ⟨rfl, rfl, ?_⟩
      cases argument with
      | string => rfl
      | char => rfl
      | _ => cases htextual
    · cases h
  · cases h

theorem comparable_comm (a b : Kind) : a.comparable b = b.comparable a := by
  cases a with
  | null => cases b <;> rfl
  | of type =>
    cases b with
    | null => rfl
    | of type' => simp [comparable, eq_comm]

theorem comparable_of_stored? {a b : Kind} (h : a.stored? = b.stored?) : a.comparable b = true := by
  cases a with
  | null => rfl
  | of type =>
    cases b with
    | null => rfl
    | of type' => exact decide_eq_true (Option.some.inj h)

theorem stored?_eq_of_comparable {a b : Kind} (h : a.comparable b = true) {s t : StoreType}
    (ha : a.stored? = some s) (hb : b.stored? = some t) : s = t := by
  cases a with
  | null => cases ha
  | of type =>
    cases b with
    | null => cases hb
    | of type' =>
      cases ha
      cases hb
      simpa [comparable] using h

end Kind

/-- Terms read as their kinds, the rows known by the names of their entities. A term that is not
    well typed has no kind, and neither has what it is a part of. -/
def Model.kinds (model : Model) : Reading (Option Kind) String where
  literal value := some (.of value.type)
  null type := some (if type.isPrimitive then .of type else .null)
  field entity label :=
    some (((model.find? entity).bind fun e => e.find? label).map fun p => .of p.type)
  unary op k := some (k.bind (Kind.unary op))
  binary op a b := some (a.bind fun a => b.bind fun b => Kind.binary op a b)
  call receiver method arguments :=
    match arguments with
    | [argument] =>
      some (receiver.bind fun receiver => argument.bind fun a => Kind.call receiver method a)
    | _ => some none
  row entity _ := entity
  bound _ := some none

/-- The kind of a lambda on the rows of an entity, if it is well typed. -/
def Lambda.kind? (model : Model) (entity : String) (l : Lambda) : Option Kind :=
  (l.content model.kinds (.row entity)).value?.join

/-! ## 2. Truth values beside operations -/

/-- The constant is handed over as its own type is stored. -/
def KeepsType (c : Literal × Option Mapping) : Prop := ∀ m, c.2 = some m → m.stored = c.1.type.stored

theorem keepsType_iff (c : Literal × Option Mapping) :
    KeepsType c ↔ (Parameter.ofConstant c).type = c.1.type.stored := by
  obtain ⟨v, mapping⟩ := c
  cases mapping with
  | none => simp [KeepsType, Parameter.ofConstant]
  | some m => simp [KeepsType, Parameter.ofConstant]

/-- Only truth values are stored as such. -/
theorem Literal.type_eq_bool {v : Literal} (h : v.type.stored = .boolean) :
    ∃ b, v = .bool b := by
  cases v with
  | bool b => exact ⟨b, rfl⟩
  | _ => cases h

namespace Expr

/-- An operator with its operands. -/
def isOperation : Expr → Bool
  | .unary _ _ _ _ => true
  | .binary _ _ _ _ _ => true
  | _ => false

/-- A constant truth value. -/
def isFlag : Expr → Bool
  | .constant (some (.bool _)) _ _ => true
  | _ => false

/-- An operation with a mapping that is not that of truth values. -/
def missesFlag (e : Expr) : Bool := e.isOperation && e.mapping.any fun m => m.stored ≠ .boolean

/-- A comparison of a constant truth value with an operation that has another mapping. -/
def comparesFlag : Expr → Bool
  | .binary op left right _ _ =>
    !op.isLogical && (left.isFlag && right.missesFlag || right.isFlag && left.missesFlag)
  | _ => false

/-- Somewhere in the expression a truth value is compared with such an operation. -/
def HasFlagCompared (e : Expr) : Prop := ∃ n ∈ e.nodes, n.comparesFlag = true

theorem assume_cases (e : Expr) (given : Option Mapping) :
    (∃ value type, e = .constant value type none ∧ e.assume given = .constant value type given) ∨
      e.assume given = e := by
  unfold assume
  split
  · exact Or.inl ⟨_, _, rfl, rfl⟩
  · exact Or.inr rfl

theorem isFlag_assume (e : Expr) (given : Option Mapping) : (e.assume given).isFlag = e.isFlag := by
  rcases e.assume_cases given with ⟨value, type, rfl, h⟩ | h
  · rw [h]
    cases value with
    | none => rfl
    | some v => cases v <;> rfl
  · rw [h]

theorem missesFlag_assume (e : Expr) (given : Option Mapping) :
    (e.assume given).missesFlag = e.missesFlag := by
  rcases e.assume_cases given with ⟨value, type, rfl, h⟩ | h
  · rw [h]
    rfl
  · rw [h]

theorem not_hasFlagCompared_constant (value : Option Literal) (type : ValueType)
    (mapping : Option Mapping) : ¬ (Expr.constant value type mapping).HasFlagCompared := by
  rintro ⟨n, hn, hflag⟩
  cases List.mem_singleton.mp hn
  cases hflag

theorem hasFlagCompared_unary {op : Expr.UnaryOp} {operand : Expr} {type : ValueType}
    {mapping : Option Mapping} :
    (Expr.unary op operand type mapping).HasFlagCompared ↔ operand.HasFlagCompared := by
  simp [HasFlagCompared, nodes, comparesFlag]

theorem hasFlagCompared_binary {op : Expr.BinaryOp} {left right : Expr} {type : ValueType}
    {mapping : Option Mapping} :
    (Expr.binary op left right type mapping).HasFlagCompared ↔
      (Expr.binary op left right type mapping).comparesFlag = true ∨
        left.HasFlagCompared ∨ right.HasFlagCompared := by
  simp [HasFlagCompared, nodes, or_and_right, exists_or]

theorem hasFlagCompared_call {function : String} {left right : Expr} {type : ValueType}
    {mapping : Option Mapping} :
    (Expr.call function [left, right] type mapping).HasFlagCompared ↔
      left.HasFlagCompared ∨ right.HasFlagCompared := by
  simp [HasFlagCompared, nodes, nodesIn, comparesFlag, or_and_right, exists_or]

/-- The constants that lose their types are truth values, and there are some exactly if one is
    compared with an operation. -/
structure Accounted (e : Expr) : Prop where
  kept : ∀ c ∈ e.constants, ¬ KeepsType c → c.1.type = .bool ∧ e.HasFlagCompared
  told : e.HasFlagCompared → ∃ c ∈ e.constants, ¬ KeepsType c

/-! ## 3. Expressions and kinds -/

/-- The expression belongs to a term of the kind. -/
structure OfKind (e : Expr) (k : Kind) : Prop where
  /-- A constant has no mapping yet, and its type is that of its value and of the kind. -/
  constant : ∀ value type mapping, e = .constant value type mapping →
    mapping = none ∧ (∀ v, value = some v → v.type = type) ∧
      (type.isPrimitive = true → k.stored? = some type.stored)
  /-- The mapping is that of the kind, or the kind is a truth value and the expression an
      operation, which has the mapping of its first operand. -/
  mapped : ∀ m, e.mapping = some m →
    k.stored? = some m.stored ∨ e.isOperation = true ∧ k.stored? = some .boolean
  /-- The same for the type in place of the kind, unless nothing can be cast to or from it. -/
  typed : ∀ m, e.mapping = some m →
    m.stored = e.type.stored ∨
      e.isOperation = true ∧ (e.type.isPrimitive = true → e.type.stored = .boolean)
  accounted : e.Accounted

theorem Accounted.of_no_constants {e : Expr} (h : e.constants = []) (hn : ¬ e.HasFlagCompared) :
    e.Accounted where
  kept := by
    rw [h]
    exact fun _ hc => absurd hc List.not_mem_nil
  told := fun hf => absurd hf hn

namespace OfKind

section One

variable {e : Expr} {k : Kind}

theorem literal (v : Literal) : (Expr.ofLiteral v none).OfKind (.of v.type) where
  constant := by
    intro value type mapping h
    cases h
    exact ⟨rfl, fun w hw => (by cases hw; rfl), fun _ => rfl⟩
  mapped := fun m h => by cases h
  typed := fun m h => by cases h
  accounted := by
    refine ⟨fun c hc hlost => ?_, fun hf => absurd hf (not_hasFlagCompared_constant _ _ _)⟩
    cases List.mem_singleton.mp hc
    exact absurd (fun m hm => by cases hm) hlost

theorem null (type : ValueType) :
    (Expr.null type).OfKind (if type.isPrimitive then .of type else .null) where
  constant := by
    intro value type' mapping h
    cases h
    refine ⟨rfl, fun w hw => (by cases hw), fun hprimitive => ?_⟩
    rw [if_pos hprimitive]
    rfl
  mapped := fun m h => by cases h
  typed := fun m h => by cases h
  accounted := .of_no_constants rfl (not_hasFlagCompared_constant _ _ _)

theorem attr (p : Property) (source : Source) :
    (Expr.attr (.of p source)).OfKind (.of p.type) := by
  have hstored : ∀ m, p.mapping? = some m → m.stored = p.type.stored := by
    intro m h
    unfold Property.mapping? ValueType.mapping? at h
    split at h
    · cases h
      rfl
    · cases h
  refine ⟨fun _ _ _ h => (by cases h), fun m h => Or.inl ?_, fun m h => Or.inl (hstored m h),
    .of_no_constants rfl ?_⟩
  · rw [hstored m h]
    rfl
  · rintro ⟨n, hn, hflag⟩
    cases List.mem_singleton.mp hn
    cases hflag

/-- A cast changes the kind and nothing else. -/
theorem convert (h : e.OfKind k) {target : ValueType} (halike : e.type.storedAlike target = true) :
    e.OfKind (.of target) := by
  simp only [ValueType.storedAlike, Bool.and_eq_true, decide_eq_true_eq] at halike
  obtain ⟨⟨hprimitive, _⟩, hstored⟩ := halike
  refine ⟨fun value type mapping heq => ?_, fun m hm => ?_, h.typed, h.accounted⟩
  · obtain ⟨hbare, hvalue, _⟩ := h.constant value type mapping heq
    refine ⟨hbare, hvalue, fun _ => ?_⟩
    subst heq
    exact congrArg some hstored.symm
  · rcases h.typed m hm with htype | ⟨hop, htype⟩
    · exact Or.inl (by rw [htype, hstored]; rfl)
    · exact Or.inr ⟨hop, by rw [← htype hprimitive, hstored]; rfl⟩

/-- An operator before an operand has its type and mapping. -/
theorem ofUnary (h : e.OfKind k) (op : Expr.UnaryOp) {k' : Kind}
    (hk : k' = .of .bool ∨ k' = k) : (Expr.ofUnary op e).OfKind k' where
  constant := fun _ _ _ heq => by cases heq
  mapped := by
    intro m hm
    rcases hk with rfl | rfl
    · exact Or.inr ⟨rfl, rfl⟩
    · rcases h.mapped m hm with hstored | ⟨_, hstored⟩
      · exact Or.inl hstored
      · exact Or.inr ⟨rfl, hstored⟩
  typed := by
    intro m hm
    rcases h.typed m hm with htype | ⟨_, htype⟩
    · exact Or.inl htype
    · exact Or.inr ⟨rfl, htype⟩
  accounted := by
    refine ⟨fun c hc hlost => ?_, fun hf => h.accounted.told (hasFlagCompared_unary.mp hf)⟩
    obtain ⟨hbool, hflag⟩ := h.accounted.kept c hc hlost
    exact ⟨hbool, hasFlagCompared_unary.mpr hflag⟩

end One

section Two

variable {left right : Expr} {a b : Kind}

/-- Operands of AND and OR do not change. -/
theorem join {op : Expr.BinaryOp} (hop : op.isLogical = true) (hl : left.OfKind a)
    (hr : right.OfKind b) : (Expr.join op left right).OfKind (.of .bool) where
  constant := fun _ _ _ heq => by cases heq
  mapped := fun _ _ => Or.inr ⟨rfl, rfl⟩
  typed := by
    intro m hm
    rcases hl.typed m hm with htype | ⟨_, htype⟩
    · exact Or.inl htype
    · exact Or.inr ⟨rfl, htype⟩
  accounted := by
    unfold Expr.join
    constructor
    · intro c hc hlost
      rw [constants_binary] at hc
      rcases List.mem_append.mp hc with hc | hc
      · obtain ⟨hbool, hflag⟩ := hl.accounted.kept c hc hlost
        exact ⟨hbool, hasFlagCompared_binary.mpr (Or.inr (Or.inl hflag))⟩
      · obtain ⟨hbool, hflag⟩ := hr.accounted.kept c hc hlost
        exact ⟨hbool, hasFlagCompared_binary.mpr (Or.inr (Or.inr hflag))⟩
    · intro hflag
      rw [constants_binary]
      rcases hasFlagCompared_binary.mp hflag with hflag | hflag | hflag
      · simp [comparesFlag, hop] at hflag
      · obtain ⟨c, hc, hlost⟩ := hl.accounted.told hflag
        exact ⟨c, List.mem_append_left _ hc, hlost⟩
      · obtain ⟨c, hc, hlost⟩ := hr.accounted.told hflag
        exact ⟨c, List.mem_append_right _ hc, hlost⟩

/-- What a constant loses by taking the mapping of what it is compared with. -/
theorem kept_beside (hl : left.OfKind a) (hr : right.OfKind b) (hab : a.comparable b = true) :
    ∀ c ∈ (left.assume right.mapping).constants, ¬ KeepsType c →
      c.1.type = .bool ∧
        (a.stored? = some .boolean ∧ left.isFlag = true ∧ right.missesFlag = true ∨
          (left.assume right.mapping).HasFlagCompared) := by
  rcases left.assume_cases right.mapping with ⟨value, type, rfl, h⟩ | h
  · rw [h]
    intro c hc hlost
    obtain ⟨_, htype, hstored⟩ := hl.constant value type none rfl
    cases value with
    | none => exact absurd hc List.not_mem_nil
    | some v =>
      cases List.mem_singleton.mp hc
      have hv : v.type = type := htype v rfl
      have ha : a.stored? = some v.type.stored := by
        rw [hv]
        refine hstored ?_
        rw [← hv]
        cases v <;> rfl
      -- the sibling's mapping is lost on a truth value beside an operation only
      unfold KeepsType at hlost
      push Not at hlost
      obtain ⟨m, hm, hne⟩ := hlost
      rcases hr.mapped m hm with hb | ⟨hop, hb⟩
      · exact absurd (Kind.stored?_eq_of_comparable hab ha hb).symm hne
      · have hboolean := Kind.stored?_eq_of_comparable hab ha hb
        obtain ⟨flag, rfl⟩ := Literal.type_eq_bool hboolean
        have hmisses : right.missesFlag = true := by
          have hm' : right.mapping = some m := hm
          simp only [missesFlag, hop, hm', Bool.true_and, Option.any_some]
          exact decide_eq_true hne
        exact ⟨rfl, Or.inl ⟨ha, rfl, hmisses⟩⟩
  · rw [h]
    intro c hc hlost
    obtain ⟨hbool, hflag⟩ := hl.accounted.kept c hc hlost
    exact ⟨hbool, Or.inr hflag⟩

/-- A truth value beside an operation with another mapping takes it. -/
theorem told_beside (hl : left.OfKind a) (hflag : left.isFlag = true)
    (hmisses : right.missesFlag = true) :
    ∃ c ∈ (left.assume right.mapping).constants, ¬ KeepsType c := by
  unfold isFlag at hflag
  split at hflag
  · rename_i flag type mapping
    obtain ⟨rfl, _⟩ := hl.constant _ _ _ rfl
    obtain ⟨_, hmapping⟩ := Bool.and_eq_true_iff.mp hmisses
    obtain ⟨m, hm, hne⟩ := (Option.any_eq_true _ _).mp hmapping
    refine ⟨(.bool flag, right.mapping), List.mem_cons_self, fun hkeeps => ?_⟩
    exact of_decide_eq_true hne (hkeeps m hm)
  · cases hflag

theorem told_assume (hl : left.OfKind a) (given : Option Mapping)
    (hflag : (left.assume given).HasFlagCompared) :
    ∃ c ∈ (left.assume given).constants, ¬ KeepsType c := by
  rcases left.assume_cases given with ⟨value, type, rfl, h⟩ | h
  · rw [h] at hflag
    exact absurd hflag (not_hasFlagCompared_constant _ _ _)
  · rw [h] at hflag ⊢
    exact hl.accounted.told hflag

/-- The first operand of a comparison, with the mapping that it takes. -/
theorem typed_beside (hl : left.OfKind a) (hr : right.OfKind b) (hab : a.comparable b = true)
    {m : Mapping} (hm : (left.assume right.mapping).mapping = some m) :
    m.stored = left.type.stored ∨ (left.type.isPrimitive = true → left.type.stored = .boolean) := by
  rcases left.assume_cases right.mapping with ⟨value, type, rfl, h⟩ | h
  · rw [h] at hm
    obtain ⟨_, _, hstored⟩ := hl.constant value type none rfl
    by_cases hprimitive : type.isPrimitive = true
    · rcases hr.mapped m hm with hb | ⟨_, hb⟩
      · exact Or.inl (Kind.stored?_eq_of_comparable hab (hstored hprimitive) hb).symm
      · exact Or.inr fun _ => Kind.stored?_eq_of_comparable hab (hstored hprimitive) hb
    · exact Or.inr fun hp => absurd hp hprimitive
  · rw [h] at hm
    rcases hl.typed m hm with htype | ⟨_, htype⟩
    · exact Or.inl htype
    · exact Or.inr htype

/-- The operands of a comparison give each other their mappings. -/
theorem compare {op : Expr.BinaryOp} (hop : op.isLogical = false) (hl : left.OfKind a)
    (hr : right.OfKind b) (hab : a.comparable b = true) :
    (Expr.compare op left right).OfKind (.of .bool) where
  constant := fun _ _ _ heq => by cases heq
  mapped := fun _ _ => Or.inr ⟨rfl, rfl⟩
  typed := by
    intro m hm
    have htype : (Expr.compare op left right).type = left.type := type_assume _ _
    rw [htype]
    rcases typed_beside hl hr hab hm with h | h
    · exact Or.inl h
    · exact Or.inr ⟨rfl, h⟩
  accounted := by
    have hba : b.comparable a = true := (b.comparable_comm a).trans hab
    have hflag : (Expr.compare op left right).comparesFlag = true ↔
        left.isFlag = true ∧ right.missesFlag = true ∨
          right.isFlag = true ∧ left.missesFlag = true := by
      simp [Expr.compare, Expr.join, comparesFlag, hop, isFlag_assume, missesFlag_assume]
    have hhas : (Expr.compare op left right).HasFlagCompared ↔
        (Expr.compare op left right).comparesFlag = true ∨
          (left.assume right.mapping).HasFlagCompared ∨
            (right.assume left.mapping).HasFlagCompared := hasFlagCompared_binary
    have hconstants : (Expr.compare op left right).constants =
        (left.assume right.mapping).constants ++ (right.assume left.mapping).constants :=
      constants_binary _ _ _ _ _
    constructor
    · intro c hc hlost
      rw [hconstants] at hc
      rw [hhas, hflag]
      rcases List.mem_append.mp hc with hc | hc
      · obtain ⟨hbool, ⟨_, hbeside⟩ | hinside⟩ := kept_beside hl hr hab c hc hlost
        · exact ⟨hbool, Or.inl (Or.inl hbeside)⟩
        · exact ⟨hbool, Or.inr (Or.inl hinside)⟩
      · obtain ⟨hbool, ⟨_, hbeside⟩ | hinside⟩ := kept_beside hr hl hba c hc hlost
        · exact ⟨hbool, Or.inl (Or.inr hbeside)⟩
        · exact ⟨hbool, Or.inr (Or.inr hinside)⟩
    · intro h
      rw [hconstants]
      rcases hhas.mp h with hnode | hinside | hinside
      · rcases hflag.mp hnode with ⟨hf, hm⟩ | ⟨hf, hm⟩
        · obtain ⟨c, hc, hlost⟩ := told_beside hl hf hm
          exact ⟨c, List.mem_append_left _ hc, hlost⟩
        · obtain ⟨c, hc, hlost⟩ := told_beside hr hf hm
          exact ⟨c, List.mem_append_right _ hc, hlost⟩
      · obtain ⟨c, hc, hlost⟩ := told_assume hl _ hinside
        exact ⟨c, List.mem_append_left _ hc, hlost⟩
      · obtain ⟨c, hc, hlost⟩ := told_assume hr _ hinside
        exact ⟨c, List.mem_append_right _ hc, hlost⟩

/-- The argument of a function on texts takes the mapping of the text. -/
theorem call (function : String) (hl : left.OfKind a) (hr : right.OfKind b)
    (ha : a.stored? = some .text) (hb : b.stored? = some .text) :
    (Expr.ofCall function [left, right] .bool).OfKind (.of .bool) where
  constant := fun _ _ _ heq => by cases heq
  mapped := fun m hm => Or.inl (by cases hm; rfl)
  typed := fun m hm => Or.inl (by cases hm; rfl)
  accounted := by
    have hself : left.assume left.mapping = left := by
      rcases left.assume_cases left.mapping with ⟨value, type, rfl, h⟩ | h
      · exact h
      · exact h
    have hexpr : Expr.ofCall function [left, right] .bool =
        .call function [left, right.assume left.mapping] .bool (some (.of .bool)) := by
      show Expr.call function [left.assume left.mapping, right.assume left.mapping] _ _ = _
      rw [hself]
      rfl
    have hba : b.comparable a = true := Kind.comparable_of_stored? (hb.trans ha.symm)
    have hconstants : (Expr.call function [left, right.assume left.mapping] .bool
        (some (.of .bool))).constants = left.constants ++ (right.assume left.mapping).constants := by
      rw [constants_call]
      simp
    rw [hexpr]
    constructor
    · intro c hc hlost
      rw [hconstants] at hc
      rw [hasFlagCompared_call]
      rcases List.mem_append.mp hc with hc | hc
      · obtain ⟨hbool, hinside⟩ := hl.accounted.kept c hc hlost
        exact ⟨hbool, Or.inl hinside⟩
      · obtain ⟨hbool, ⟨hstored, _⟩ | hinside⟩ := kept_beside hr hl hba c hc hlost
        · cases hb.symm.trans hstored
        · exact ⟨hbool, Or.inr hinside⟩
    · intro h
      rw [hconstants]
      rcases hasFlagCompared_call.mp h with hinside | hinside
      · obtain ⟨c, hc, hlost⟩ := hl.accounted.told hinside
        exact ⟨c, List.mem_append_left _ hc, hlost⟩
      · obtain ⟨c, hc, hlost⟩ := told_assume hr _ hinside
        exact ⟨c, List.mem_append_right _ hc, hlost⟩

end Two

end OfKind

end Expr

end EntityQuery
