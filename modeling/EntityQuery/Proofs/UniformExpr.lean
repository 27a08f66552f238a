import EntityQuery.Proofs.Placeholders
import EntityQuery.Proofs.Reading.Families

/-!
Expressions that differ in their literals only.

A family has an expression for every choice of payloads. It is uniform if the payloads show in its
literals and nowhere else.

* `Expr.Uniform` -- uniform families, constructor by constructor;
* `Expr.Uniform.ofBinary`, `Expr.Uniform.ofUnary`, `Expr.Uniform.ofCall` -- building an expression
  keeps a family uniform, since types and mappings do not hang on payloads;
* `Expr.Uniform.text_render` -- **the text of a rendered expression does not hang on payloads**;
* `Expr.Uniform.constants` -- its constants are literals with numbers, each with its payload.
-/
namespace EntityQuery

namespace Expr

/-! ## 1. Uniform families -/

/-- An expression for each choice of payloads, which shows in its literals only. Each literal has a
    number and, with it, the property `P`. -/
inductive Uniform (P : Nat → Literal → Prop) : (Payloads → Expr) → Prop where
  | literal {i : Nat} {v : Literal} (h : P i v) (mapping : Option Mapping) :
      Uniform P fun g => .constant (some (g.of i v)) v.type mapping
  | null (type : ValueType) (mapping : Option Mapping) :
      Uniform P fun _ => .constant none type mapping
  | unary (op : UnaryOp) {a : Payloads → Expr} (h : Uniform P a) (type : ValueType)
      (mapping : Option Mapping) : Uniform P fun g => .unary op (a g) type mapping
  | binary (op : BinaryOp) {a b : Payloads → Expr} (ha : Uniform P a) (hb : Uniform P b)
      (type : ValueType) (mapping : Option Mapping) :
      Uniform P fun g => .binary op (a g) (b g) type mapping
  | call (function : String) {as : List (Payloads → Expr)} (h : ∀ a ∈ as, Uniform P a)
      (type : ValueType) (mapping : Option Mapping) :
      Uniform P fun g => .call function (as.map fun a => a g) type mapping
  | attr (ref : AttributeRef) : Uniform P fun _ => .attr ref
  | row (ref : RowRef) : Uniform P fun _ => .row ref

namespace Uniform

variable {P : Nat → Literal → Prop} {a b : Payloads → Expr}

theorem congr {a' : Payloads → Expr} (h : Uniform P a) (ha : ∀ g, a' g = a g) : Uniform P a' := by
  rw [show a' = a from funext ha]
  exact h

/-! ## 2. What does not hang on payloads

What all members of a family have in common is that of the member where every literal stays. -/

theorem type_eq (h : Uniform P a) (g : Payloads) : (a g).type = (a .same).type := by
  cases h <;> rfl

theorem mapping_eq (h : Uniform P a) (g : Payloads) : (a g).mapping = (a .same).mapping := by
  cases h <;> rfl

theorem isNull_eq (h : Uniform P a) (g : Payloads) : (a g).isNull = (a .same).isNull := by
  cases h <;> rfl

theorem isRow_eq (h : Uniform P a) (g : Payloads) : (a g).isRow = (a .same).isRow := by
  cases h <;> rfl

theorem attributes_eq (h : Uniform P a) (g : Payloads) :
    (a g).attributes = (a .same).attributes := by
  induction h with
  | literal _ _ => rfl
  | null _ _ => rfl
  | unary _ _ _ _ ih => exact ih
  | binary _ _ _ _ _ iha ihb => rw [attributes, attributes, iha, ihb]
  | call _ _ _ _ ih =>
    rw [attributes, attributes, attributesIn_eq_flatMap, attributesIn_eq_flatMap, List.flatMap_map,
      List.flatMap_map]
    exact List.flatMap_congr fun a ha => ih a ha
  | attr _ => rfl
  | row _ => rfl

/-! ## 3. Building expressions -/

theorem ofLiteral {i : Nat} {v : Literal} (h : P i v) (mapping : Option Mapping) :
    Uniform P fun g => Expr.ofLiteral (g.of i v) mapping :=
  (literal h mapping).congr fun g => by rw [Expr.ofLiteral, g.type_of]

theorem assume (h : Uniform P a) (given : Option Mapping) :
    Uniform P fun g => (a g).assume given := by
  cases h with
  | literal hv mapping =>
    cases mapping with
    | none => exact .literal hv given
    | some m => exact .literal hv (some m)
  | null type mapping =>
    cases mapping with
    | none => exact .null type given
    | some m => exact .null type (some m)
  | unary op ha type mapping => exact .unary op ha type mapping
  | binary op ha hb type mapping => exact .binary op ha hb type mapping
  | call function has type mapping => exact .call function has type mapping
  | attr ref => exact .attr ref
  | row ref => exact .row ref

theorem join (op : BinaryOp) (ha : Uniform P a) (hb : Uniform P b) :
    Uniform P fun g => Expr.join op (a g) (b g) :=
  (binary op ha hb (a .same).type (a .same).mapping).congr fun g => by
    rw [Expr.join, ha.type_eq g, ha.mapping_eq g]

theorem ofBinary (op : BinaryOp) (ha : Uniform P a) (hb : Uniform P b) :
    Uniform P fun g => Expr.ofBinary op (a g) (b g) := by
  by_cases hop : op.isLogical = true
  · refine (ha.join op hb).congr fun g => ?_
    rw [Expr.ofBinary, if_pos hop]
  · -- the sides give each other their mappings, which are the same for all payloads
    refine ((ha.assume (b .same).mapping).join op (hb.assume (a .same).mapping)).congr fun g => ?_
    rw [Expr.ofBinary, if_neg hop, compare, ha.mapping_eq g, hb.mapping_eq g]

theorem ofUnary (op : UnaryOp) (h : Uniform P a) : Uniform P fun g => Expr.ofUnary op (a g) :=
  (unary op h (a .same).type (a .same).mapping).congr fun g => by
    rw [Expr.ofUnary, h.type_eq g, h.mapping_eq g]

/-- A function of two arguments: the second takes the mapping of the first. -/
theorem ofCall (function : String) (ha : Uniform P a) (hb : Uniform P b) (type : ValueType) :
    Uniform P fun g => Expr.ofCall function [a g, b g] type := by
  have hargs : ∀ c ∈ [fun g => (a g).assume (a .same).mapping,
      fun g => (b g).assume (a .same).mapping], Uniform P c := by
    intro c hc
    simp only [List.mem_cons, List.not_mem_nil, or_false] at hc
    rcases hc with rfl | rfl
    · exact ha.assume _
    · exact hb.assume _
  refine (call function hargs type type.mapping?).congr fun g => ?_
  rw [← ha.mapping_eq g]
  rfl

end Uniform

end Expr

/-! ## 4. Rendering -/

/-- Two renderings that look the same: with one fault, or with results that have the same view. -/
def Alike {α β : Type} (view : α → β) (x y : Except RenderFault α) : Prop :=
  x.map view = y.map view

namespace Alike

variable {α β γ δ : Type} {view : α → γ} {view' : β → δ}

theorem ok {a b : α} (h : view a = view b) : Alike view (.ok a) (.ok b) := congrArg Except.ok h

theorem bind {x y : Except RenderFault α} (h : Alike view x y) {f f' : α → Except RenderFault β}
    (hf : ∀ a b, view a = view b → Alike view' (f a) (f' b)) :
    Alike view' (x >>= f) (y >>= f') := by
  cases x with
  | error fault =>
    cases y with
    | error fault' =>
      cases h
      rfl
    | ok b => cases h
  | ok a =>
    cases y with
    | error fault => cases h
    | ok b => exact hf a b (Except.ok.inj h)

end Alike

namespace Expr

theorem text_wrap (nested : Bool) {s t : Statement} (h : s.text = t.text) :
    (wrap nested s).text = (wrap nested t).text := by
  cases nested with
  | false => exact h
  | true => simp [wrap, Statement.parenthesised, h]

theorem alike_renderAll {g : Payloads} :
    ∀ {as : List (Payloads → Expr)},
      (∀ a ∈ as, Alike Statement.text ((a g).render false) ((a .same).render false)) →
      Alike (List.map Statement.text) (renderAll (as.map fun a => a g))
        (renderAll (as.map fun a => a .same))
  | [], _ => rfl
  | a :: as, h => by
    have htail := alike_renderAll fun b hb => h b (List.mem_cons_of_mem a hb)
    refine (h a List.mem_cons_self).bind fun s t hst => htail.bind fun ss ts hss => .ok ?_
    rw [List.map_cons, List.map_cons, hst, hss]

namespace Uniform

variable {P : Nat → Literal → Prop} {a : Payloads → Expr}

/-- **The text of a rendered expression does not hang on payloads**, and neither does its fault, if
    it has one. -/
theorem text_render (h : Uniform P a) (g : Payloads) (nested : Bool) :
    Alike Statement.text ((a g).render nested) ((a .same).render nested) := by
  induction h generalizing nested with
  | literal _ _ => exact .ok rfl
  | null _ _ => exact .ok rfl
  | unary op _ _ _ ih =>
    rw [render, render]
    refine (ih true).bind fun s t hst => .ok ?_
    rw [Statement.text_append, Statement.text_append, hst]
  | binary op ha hb _ _ iha ihb =>
    -- no payload makes an operand null, so all members of the family take the same branch
    rw [render, render, ha.isNull_eq g, hb.isNull_eq g]
    split
    · refine (iha true).bind fun s t hst => .ok (text_wrap nested ?_)
      rw [Statement.text_append, Statement.text_append, hst]
    · refine (ihb true).bind fun s t hst => .ok (text_wrap nested ?_)
      rw [Statement.text_append, Statement.text_append, hst]
    · refine (iha true).bind fun s t hst => (ihb true).bind fun u v huv => .ok (text_wrap nested ?_)
      simp only [Statement.text_append, hst, huv]
  | call function _ _ _ ih =>
    rw [render, render]
    refine (alike_renderAll fun a ha => ih a ha false).bind fun ss ts hss => .ok ?_
    simp only [Statement.text_append, Statement.text_intercalate, hss]
  | attr _ => exact .ok rfl
  | row _ => rfl

end Uniform

/-! ## 5. Constants -/

/-- Constants for each choice of payloads: the same literals with numbers, each with its payload. -/
def Slotted (P : Nat → Literal → Prop) (cs : Payloads → List (Literal × Option Mapping)) : Prop :=
  ∃ slots : List (Nat × Literal × Option Mapping), (∀ slot ∈ slots, P slot.1 slot.2.1) ∧
    ∀ g, cs g = slots.map fun slot => (g.of slot.1 slot.2.1, slot.2.2)

namespace Slotted

variable {P : Nat → Literal → Prop}

theorem nil : Slotted P fun _ => [] := ⟨[], fun _ h => absurd h List.not_mem_nil, fun _ => rfl⟩

theorem append {cs ds : Payloads → List (Literal × Option Mapping)} (hc : Slotted P cs)
    (hd : Slotted P ds) : Slotted P fun g => cs g ++ ds g := by
  obtain ⟨slots, hslots, hcs⟩ := hc
  obtain ⟨more, hmore, hds⟩ := hd
  refine ⟨slots ++ more, fun slot hslot => ?_, fun g => ?_⟩
  · rcases List.mem_append.mp hslot with hslot | hslot
    · exact hslots slot hslot
    · exact hmore slot hslot
  · rw [List.map_append, ← hcs g, ← hds g]

theorem flatMap {as : List (Payloads → Expr)}
    (h : ∀ a ∈ as, Slotted P fun g => (a g).constants) :
    Slotted P fun g => as.flatMap fun a => (a g).constants := by
  induction as with
  | nil => exact nil
  | cons a as ih =>
    exact (h a List.mem_cons_self).append (ih fun b hb => h b (List.mem_cons_of_mem a hb))

end Slotted

/-- **The constants of a uniform family are literals with numbers**, each with its payload. -/
theorem Uniform.constants {P : Nat → Literal → Prop} {a : Payloads → Expr} (h : Uniform P a) :
    Slotted P fun g => (a g).constants := by
  induction h with
  | @literal i v hv mapping =>
    refine ⟨[(i, v, mapping)], fun slot hslot => ?_, fun g => rfl⟩
    rw [List.mem_singleton.mp hslot]
    exact hv
  | null _ _ => exact .nil
  | unary _ _ _ _ ih => exact ih
  | binary _ _ _ _ _ iha ihb =>
    simp only [constants_binary]
    exact iha.append ihb
  | call _ _ _ _ ih =>
    simp only [constants_call, List.flatMap_map]
    exact .flatMap ih
  | attr _ => exact .nil
  | row _ => exact .nil

end Expr

end EntityQuery
