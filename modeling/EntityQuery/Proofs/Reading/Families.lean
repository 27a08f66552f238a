import EntityQuery.Proofs.Payloads
import EntityQuery.Proofs.Reading.Basic

/-!
What terms stand for in many runs at once.

The runs read the same term with other literals. Their results form a family, one for each run.

* `Uniformly` -- all runs are without a result, or all have one and these form a family of a kind;
* `Content.Uniform` -- contents that differ from run to run in their values only;
* `Reading.Uniform` -- the operations lead from families of a kind to families of that kind;
* `Term.uniform_content` -- **then what a term stands for differs from run to run in its values
  only**, whatever the payloads of its literals.
-/
namespace EntityQuery

universe u w

/-! ## 1. Families of results -/

section Results

variable {J : Type} {α : Type u} {β : Type w}

/-- No run has a result, or all have one, and these form a family with a property. -/
def Uniformly (U : (J → α) → Prop) (o : J → Option α) : Prop :=
  (∀ j, o j = none) ∨ ∃ a, U a ∧ ∀ j, o j = some (a j)

namespace Uniformly

variable {U : (J → α) → Prop} {V : (J → β) → Prop}

theorem none : Uniformly U fun _ => Option.none := Or.inl fun _ => rfl

theorem some {a : J → α} (h : U a) : Uniformly U fun j => Option.some (a j) :=
  Or.inr ⟨a, h, fun _ => rfl⟩

theorem congr {o o' : J → Option α} (h : Uniformly U o) (ho : ∀ j, o' j = o j) :
    Uniformly U o' := by
  rw [show o' = o from funext ho]
  exact h

theorem bind {o : J → Option α} {f : J → α → Option β} (h : Uniformly U o)
    (hf : ∀ a, U a → Uniformly V fun j => f j (a j)) : Uniformly V fun j => (o j).bind (f j) := by
  rcases h with h | ⟨a, ha, h⟩
  · exact Uniformly.none.congr fun j => by rw [h j]; rfl
  · exact (hf a ha).congr fun j => by rw [h j]; rfl

theorem map {o : J → Option α} {f : J → α → β} (h : Uniformly U o)
    (hf : ∀ a, U a → V fun j => f j (a j)) : Uniformly V fun j => (o j).map (f j) := by
  rcases h with h | ⟨a, ha, h⟩
  · exact Uniformly.none.congr fun j => by rw [h j]; rfl
  · exact (Uniformly.some (hf a ha)).congr fun j => by rw [h j]; rfl

end Uniformly

/-- Lists of one length in all runs, whose items form families with a property. -/
inductive EachUniform (U : (J → α) → Prop) : (J → List α) → Prop where
  | nil : EachUniform U fun _ => []
  | cons {a : J → α} {as : J → List α} (head : U a) (tail : EachUniform U as) :
      EachUniform U fun j => a j :: as j

end Results

/-! ## 2. Families of contents -/

namespace Content

variable {J : Type} {α : Type u} {ρ : Type} {U : (J → α) → Prop}

/-- Contents that differ from run to run in their values only. -/
inductive Uniform (U : (J → α) → Prop) : (J → Content α ρ) → Prop where
  | nothing : Uniform U fun _ => .nothing
  | value {a : J → α} (h : U a) : Uniform U fun j => .value (a j)
  | row (r : ρ) : Uniform U fun _ => .row r
  | object {members : List (String × (J → Content α ρ))} (h : ∀ m ∈ members, Uniform U m.2) :
      Uniform U fun j => .object (members.map fun m => (m.1, m.2 j))

theorem Uniform.congr {c c' : J → Content α ρ} (h : Uniform U c) (hc : ∀ j, c' j = c j) :
    Uniform U c' := by
  rw [show c' = c from funext hc]
  exact h

theorem Uniform.ofOption {o : J → Option α} (h : Uniformly U o) :
    Uniform U fun j => (.ofOption (o j) : Content α ρ) := by
  rcases h with h | ⟨a, ha, h⟩
  · exact Uniform.nothing.congr fun j => by rw [h j]; rfl
  · exact (Uniform.value ha).congr fun j => by rw [h j]; rfl

theorem Uniform.value? {c : J → Content α ρ} (h : Uniform U c) :
    Uniformly U fun j => (c j).value? := by
  cases h with
  | value ha => exact .some ha
  | nothing | row | object => exact .none

theorem uniform_named? (label : String) {members : List (String × (J → Content α ρ))}
    (h : ∀ m ∈ members, Uniform U m.2) :
    Uniform U fun j => (named? label (members.map fun m => (m.1, m.2 j))).getD .nothing := by
  induction members with
  | nil => exact .nothing
  | cons m rest ih =>
    obtain ⟨l, c⟩ := m
    by_cases hl : l = label
    · refine (h (l, c) List.mem_cons_self).congr fun j => ?_
      simp [named?, hl]
    · refine (ih fun m hm => h m (List.mem_cons_of_mem _ hm)).congr fun j => ?_
      simp [named?, hl]

theorem Uniform.select {c : J → Content α ρ} (h : Uniform U c)
    {field : J → ρ → String → Option α} (hfield : ∀ r label, Uniformly U fun j => field j r label)
    (label : String) : Uniform U fun j => (c j).select (field j) label := by
  cases h with
  | nothing => exact .nothing
  | value _ => exact .nothing
  | row r => exact .ofOption (hfield r label)
  | object hmembers => exact uniform_named? label hmembers

end Content

/-! ## 3. Families of readings -/

/-- Literals are at places: each has the property with its number, counted from the given one. -/
def Placed (P : Nat → Literal → Prop) (n : Nat) (vs : List Literal) : Prop :=
  ∀ i v, vs[i]? = some v → P (n + i) v

theorem Placed.append {P : Nat → Literal → Prop} {n : Nat} {vs ws : List Literal}
    (h : Placed P n (vs ++ ws)) : Placed P n vs ∧ Placed P (n + vs.length) ws := by
  constructor
  · intro i v hi
    have hlt : i < vs.length := (List.getElem?_eq_some_iff.mp hi).1
    refine h i v ?_
    rw [List.getElem?_append_left hlt]
    exact hi
  · intro i v hi
    rw [Nat.add_assoc]
    refine h (vs.length + i) v ?_
    rw [List.getElem?_append_right (Nat.le_add_right _ _), Nat.add_sub_cancel_left]
    exact hi

/-- The operations of the readings lead from families with a property to families with it, and
    literals at places form such families. -/
structure Reading.Uniform {α : Type u} {ρ : Type} (P : Nat → Literal → Prop)
    (U : (Payloads → α) → Prop) (R : Payloads → Reading α ρ) : Prop where
  literal : ∀ i v, P i v → U fun g => (R g).literal (g.of i v)
  null : ∀ type, U fun g => (R g).null type
  field : ∀ r label, Uniformly U fun g => (R g).field r label
  unary : ∀ op a, U a → Uniformly U fun g => (R g).unary op (a g)
  binary : ∀ op a b, U a → U b → Uniformly U fun g => (R g).binary op (a g) (b g)
  call : ∀ a method as, U a → EachUniform U as → Uniformly U fun g => (R g).call (a g) method (as g)
  row : ∀ name path, ∃ r, ∀ g, (R g).row name path = r
  bound : ∀ path, Uniformly U fun g => (R g).bound path

namespace Term

variable {α : Type u} {ρ : Type} {P : Nat → Literal → Prop} {U : (Payloads → α) → Prop}
  {R : Payloads → Reading α ρ} {scope : Payloads → Scope α ρ}

theorem uniform_valuesOf :
    ∀ {ts : List Term} {n : Nat},
      (∀ t ∈ ts, ∀ n, Placed P n t.literals →
        Content.Uniform U fun g => (t.withPayloads g n).content (R g) (scope g)) →
      Placed P n (literalsIn ts) →
      Uniformly (EachUniform U) fun g => valuesOf (R g) (scope g) (withPayloadsIn g n ts)
  | [], _, _, _ => .some .nil
  | t :: ts, n, ht, hplaced => by
    obtain ⟨hhead, htail⟩ := hplaced.append
    have hvalue := (ht t List.mem_cons_self n hhead).value?
    have hvalues := uniform_valuesOf (fun u hu => ht u (List.mem_cons_of_mem t hu)) htail
    exact hvalue.bind fun a ha => hvalues.map fun as has => .cons ha has

theorem uniform_memberContents :
    ∀ {ms : List (String × Term)} {n : Nat},
      (∀ m ∈ ms, ∀ n, Placed P n m.2.literals →
        Content.Uniform U fun g => (m.2.withPayloads g n).content (R g) (scope g)) →
      Placed P n (memberLiterals ms) →
      ∃ members : List (String × (Payloads → Content α ρ)),
        (∀ m ∈ members, Content.Uniform U m.2) ∧
        ∀ g, memberContents (R g) (scope g) (memberPayloads g n ms) =
          members.map fun m => (m.1, m.2 g)
  | [], _, _, _ => ⟨[], fun _ h => absurd h List.not_mem_nil, fun _ => rfl⟩
  | (label, t) :: ms, n, hm, hplaced => by
    obtain ⟨hhead, htail⟩ := hplaced.append
    have hcontent := hm (label, t) List.mem_cons_self n hhead
    obtain ⟨members, hmembers, heq⟩ :=
      uniform_memberContents (fun m h => hm m (List.mem_cons_of_mem _ h)) htail
    refine ⟨(label, fun g => (t.withPayloads g n).content (R g) (scope g)) :: members, ?_, ?_⟩
    · intro m hm'
      rcases List.mem_cons.mp hm' with rfl | hm'
      · exact hcontent
      · exact hmembers m hm'
    · intro g
      rw [memberPayloads, memberContents, heq g]
      rfl

/-- **What a term stands for differs from run to run in its values only**, whatever the payloads of
    its literals. -/
theorem uniform_content (hR : Reading.Uniform P U R)
    (hscope : ∀ name, Content.Uniform U fun g => scope g name) (t : Term) {n : Nat}
    (hplaced : Placed P n t.literals) :
    Content.Uniform U fun g => (t.withPayloads g n).content (R g) (scope g) := by
  induction t generalizing n with
  | constant value type =>
    -- null is no literal: it has neither a number nor a payload
    cases value with
    | none => exact .value (hR.null type)
    | some value => exact .value (hR.literal n value (hplaced 0 value rfl))
  | parameter name => exact hscope name
  | member target label ih => exact (ih hplaced).select hR.field label
  | unary op operand ih =>
    exact .ofOption ((ih hplaced).value?.bind fun a ha => hR.unary op a ha)
  | binary op left right ihl ihr =>
    -- the literals on the right are counted on from those on the left
    obtain ⟨hl, hr⟩ := hplaced.append
    exact .ofOption ((ihl hl).value?.bind fun a ha =>
      (ihr hr).value?.bind fun b hb => hR.binary op a b ha hb)
  | call receiver method arguments ihr iha =>
    obtain ⟨hr, ha⟩ := hplaced.append
    exact .ofOption ((ihr hr).value?.bind fun a haU =>
      (uniform_valuesOf (fun t ht _ => iha t ht) ha).bind fun as has => hR.call a method as haU has)
  | ownerCall _ _ _ => exact .nothing
  | object members ih =>
    obtain ⟨families, hfamilies, heq⟩ := uniform_memberContents (fun m hm _ => ih m hm) hplaced
    refine (Content.Uniform.object hfamilies).congr fun g => ?_
    rw [withPayloads, content, heq g]
  | conditional _ _ _ _ _ _ => exact .nothing
  | lambda _ _ _ => exact .nothing
  | entity name path =>
    obtain ⟨r, hr⟩ := hR.row name path
    refine (Content.Uniform.row r).congr fun g => ?_
    rw [withPayloads, content, hr g]
  | binding path => exact .ofOption (hR.bound path)

end Term

end EntityQuery
