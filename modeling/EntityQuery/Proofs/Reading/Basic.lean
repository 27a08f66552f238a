import EntityQuery.Proofs.Terms

/-!
What terms stand for.

A term stands for nothing, for a single value, for a whole row, or for an object whose members
stand for something in turn. What the values are is left open: the same terms are read over
expressions of the store and over values of a host.

* `Content` -- what a term can stand for;
* `Reading` -- values for literals and operations, and for what is bound at a path;
* `Term.content` -- what a term stands for under a reading, given what its free parameters stand
  for;
* `Term.content_subst` -- substituting a term for a parameter is reading the parameter as that term;
* `Term.content_resolve` -- looking through member accesses does not change what a term stands for;
* `Term.content_of_isPlain` -- what is bound at paths is of no account for a plain term.
-/
namespace EntityQuery

universe u

/-! ## 1. Contents -/

/-- What a term stands for. -/
inductive Content (α : Type u) (ρ : Type) where
  | nothing
  | value (a : α)
  | row (r : ρ)
  | object (members : List (String × Content α ρ))

namespace Content

variable {α : Type u} {ρ : Type}

/-- A value, or nothing. -/
def ofOption : Option α → Content α ρ
  | some a => .value a
  | none => .nothing

/-- The single value that a content is. -/
def value? : Content α ρ → Option α
  | .value a => some a
  | _ => none

@[simp] theorem value?_ofOption (o : Option α) : (ofOption o : Content α ρ).value? = o := by
  cases o <;> rfl

theorem eq_value_of_value? {c : Content α ρ} {a : α} (h : c.value? = some a) : c = .value a := by
  cases c with
  | value b =>
    cases h
    rfl
  | _ => cases h

/-- The first member with a label. -/
def named? (label : String) : List (String × Content α ρ) → Option (Content α ρ)
  | [] => none
  | (l, c) :: rest => if l = label then some c else named? label rest

/-- The member with a label: the field of a row, or the first such member of an object. -/
def select (field : ρ → String → Option α) (label : String) : Content α ρ → Content α ρ
  | .row r => .ofOption (field r label)
  | .object members => (named? label members).getD .nothing
  | _ => .nothing

/-- What labels lead to through objects. -/
def follow : List String → Content α ρ → Content α ρ
  | [], c => c
  | l :: ls, .object members => follow ls ((named? l members).getD .nothing)
  | _ :: _, _ => .nothing

end Content

/-! ## 2. Readings -/

/-- How terms are read. The operations are partial; `field` is a member of a row, `row` and `bound`
    are what stands at a path. -/
structure Reading (α : Type u) (ρ : Type) where
  literal : Literal → α
  null : ValueType → α
  field : ρ → String → Option α
  unary : UnaryOp → α → Option α
  binary : BinaryOp → α → α → Option α
  call : α → Method → List α → Option α
  row : String → Path → ρ
  bound : Path → Option α

/-- What parameters stand for. -/
abbrev Scope (α : Type u) (ρ : Type) := String → Content α ρ

namespace Scope

variable {α : Type u} {ρ : Type}

/-- No parameter stands for anything. -/
def empty : Scope α ρ := fun _ => .nothing

/-- One parameter stands for a content, the others for what they stood for. -/
def set (scope : Scope α ρ) (name : String) (c : Content α ρ) : Scope α ρ :=
  fun n => if n = name then c else scope n

end Scope

namespace Term

variable {α : Type u} {ρ : Type}

mutual
/-- What a term stands for. Calls without a receiver, conditionals and lambdas have no reading. -/
def content (R : Reading α ρ) (scope : Scope α ρ) : Term → Content α ρ
  | .constant (some value) _ => .value (R.literal value)
  | .constant none type => .value (R.null type)
  | .parameter name => scope name
  | .member target label => (content R scope target).select R.field label
  | .unary op operand => .ofOption ((content R scope operand).value?.bind (R.unary op))
  | .binary op left right =>
    .ofOption ((content R scope left).value?.bind fun a =>
      (content R scope right).value?.bind fun b => R.binary op a b)
  | .call receiver method arguments =>
    .ofOption ((content R scope receiver).value?.bind fun a =>
      (valuesOf R scope arguments).bind fun as => R.call a method as)
  | .ownerCall _ _ => .nothing
  | .object members => .object (memberContents R scope members)
  | .conditional _ _ _ => .nothing
  | .lambda _ _ => .nothing
  | .entity name path => .row (R.row name path)
  | .binding path => .ofOption (R.bound path)

/-- The values that terms stand for, if each stands for one. -/
def valuesOf (R : Reading α ρ) (scope : Scope α ρ) : List Term → Option (List α)
  | [] => some []
  | t :: rest =>
    (content R scope t).value?.bind fun a => (valuesOf R scope rest).map fun as => a :: as

/-- What the members of an object stand for. -/
def memberContents (R : Reading α ρ) (scope : Scope α ρ) :
    List (String × Term) → List (String × Content α ρ)
  | [] => []
  | (label, t) :: rest => (label, content R scope t) :: memberContents R scope rest
end

theorem memberContents_eq_map (R : Reading α ρ) (scope : Scope α ρ) (ms : List (String × Term)) :
    memberContents R scope ms = ms.map fun m => (m.1, content R scope m.2) := by
  induction ms with
  | nil => rfl
  | cons m ms ih =>
    rw [memberContents, ih]
    rfl

theorem named?_memberContents (R : Reading α ρ) (scope : Scope α ρ) (label : String)
    (ms : List (String × Term)) :
    Content.named? label (memberContents R scope ms) =
      (memberNamed? label ms).map (content R scope) := by
  induction ms with
  | nil => rfl
  | cons m ms ih =>
    obtain ⟨l, t⟩ := m
    by_cases h : l = label
    · simp [memberContents, Content.named?, memberNamed?, h]
    · simp [memberContents, Content.named?, memberNamed?, h, ih]

/-! ## 3. Substitution -/

theorem valuesOf_congr {R S : Reading α ρ} {scope scope' : Scope α ρ} (f : Term → Term)
    {ts : List Term} (h : ∀ t ∈ ts, content R scope (f t) = content S scope' t) :
    valuesOf R scope (ts.map f) = valuesOf S scope' ts := by
  induction ts with
  | nil => rfl
  | cons t ts ih =>
    rw [List.map_cons, valuesOf, valuesOf, h t List.mem_cons_self,
      ih fun u hu => h u (List.mem_cons_of_mem t hu)]

theorem memberContents_congr {R S : Reading α ρ} {scope scope' : Scope α ρ} (f : Term → Term)
    {ms : List (String × Term)} (h : ∀ m ∈ ms, content R scope (f m.2) = content S scope' m.2) :
    memberContents R scope (ms.map fun m => (m.1, f m.2)) = memberContents S scope' ms := by
  rw [memberContents_eq_map, memberContents_eq_map, List.map_map]
  refine List.map_congr_left fun m hm => ?_
  show (m.1, content R scope (f m.2)) = _
  rw [h m hm]

/-- **Substituting a term for a parameter is reading the parameter as that term.** Nothing is
    captured, since lambdas inside a term have no reading. -/
theorem content_subst (R : Reading α ρ) (scope : Scope α ρ) (p : String) (r t : Term) :
    (subst p r t).content R scope = t.content R (scope.set p (r.content R scope)) := by
  induction t with
  | constant value type => cases value <;> simp only [subst, content]
  | parameter name =>
    by_cases h : name = p
    · simp [subst, content, Scope.set, h]
    · simp [subst, content, Scope.set, h]
  | member target label ih => simp only [subst, content, ih]
  | unary op operand ih => simp only [subst, content, ih]
  | binary op left right ihl ihr => simp only [subst, content, ihl, ihr]
  | call receiver method arguments ihr iha =>
    simp only [subst, content, ihr, substAll_eq_map, valuesOf_congr _ iha]
  | ownerCall method arguments _ => simp only [subst, content]
  | object members ih => simp only [subst, content, substMembers_eq_map, memberContents_congr _ ih]
  | conditional test whenTrue whenFalse _ _ _ => simp only [subst, content]
  | lambda q body _ =>
    by_cases h : q = p
    · simp [subst, content, h]
    · simp [subst, content, h]
  | entity name path => simp only [subst, content]
  | binding path => simp only [subst, content]

end Term

/-- What the body of a lambda stands for, given what its parameter stands for. -/
def Lambda.content {α : Type u} {ρ : Type} (R : Reading α ρ) (l : Lambda) (c : Content α ρ) :
    Content α ρ := l.body.content R (Scope.empty.set l.parameter c)

/-- An applied lambda stands for what it stands for on the content of its argument. -/
theorem Lambda.content_apply {α : Type u} {ρ : Type} (R : Reading α ρ) (l : Lambda) (t : Term) :
    (l.apply t).content R Scope.empty = l.content R (t.content R Scope.empty) :=
  Term.content_subst R Scope.empty l.parameter t l.body

namespace Term

variable {α : Type u} {ρ : Type}

/-! ## 4. Member accesses -/

/-- **Looking through member accesses does not change what a term stands for.** -/
theorem content_resolve (R : Reading α ρ) (scope : Scope α ρ) (t : Term) :
    t.resolve.content R scope = t.content R scope := by
  match t with
  | .member target label =>
    have ht := content_resolve R scope target
    rw [resolve_member]
    split
    · rename_i members hm
      rw [hm, content] at ht
      split
      · rename_i selected hs
        have := sizeOf_selected_lt hm hs
        rw [content_resolve R scope selected, content, ← ht, Content.select, named?_memberContents, hs]
        rfl
      · rfl
    · rfl
  | .constant _ _ | .parameter _ | .unary _ _ | .binary _ _ _ | .call _ _ _ | .ownerCall _ _
  | .object _ | .conditional _ _ _ | .lambda _ _ | .entity _ _ | .binding _ =>
    rw [resolve_of_not_member fun _ _ e => by cases e]
termination_by sizeOf t

/-- A closed term whose member accesses lead to no object construction and to no row stands for a
    single value or for nothing. -/
theorem content_eq_ofOption (R : Reading α ρ) (t : Term)
    (hobject : ∀ members, t.resolve ≠ .object members)
    (hentity : ∀ name path, t.resolve ≠ .entity name path) :
    t.content R Scope.empty = .ofOption (t.content R Scope.empty).value? := by
  match t with
  | .member target label =>
    -- the access is stuck, so its target is an object without the member, a row or no more
    rw [resolve_member] at hobject hentity
    have ht := content_resolve R Scope.empty target
    rw [content]
    split at hobject
    · rename_i members hm
      rw [hm, content] at ht
      rw [← ht, Content.select, named?_memberContents]
      split at hobject
      · rename_i selected hs
        have := sizeOf_selected_lt hm hs
        rw [hm] at hentity
        simp only [hs] at hentity
        rw [hs]
        exact content_eq_ofOption R selected hobject hentity
      · rename_i hs
        rw [hs]
        rfl
    · rename_i hm
      cases hr : target.resolve with
      | entity name path =>
        rw [hr, content] at ht
        rw [← ht, Content.select, Content.value?_ofOption]
      | object members => exact absurd hr (hm members)
      | _ =>
        have hflat := content_eq_ofOption R target (by simp [hr]) (by simp [hr])
        rw [hflat]
        cases (target.content R Scope.empty).value? <;> rfl
  | .constant value _ => cases value <;> simp [content, Content.value?, Content.ofOption]
  | .parameter _ | .ownerCall _ _ | .conditional _ _ _ | .lambda _ _ =>
    simp [content, Scope.empty, Content.value?, Content.ofOption]
  | .unary _ _ | .binary _ _ _ | .call _ _ _ | .binding _ => simp [content]
  | .object members => exact absurd (by simp [resolve, Term.follow]) (hobject members)
  | .entity name path => exact absurd (by simp [resolve, Term.follow]) (hentity name path)
termination_by sizeOf t

end Term

/-! ## 5. Plain terms -/

/-- The reading with other rows and values at the paths. -/
def Reading.withPlaces {α : Type u} {ρ : Type} (R : Reading α ρ) (row : String → Path → ρ)
    (bound : Path → Option α) : Reading α ρ := { R with row := row, bound := bound }

/-- **What is bound at paths is of no account for a plain term.** -/
theorem Term.content_of_isPlain {α : Type u} {ρ : Type} (R : Reading α ρ) (scope : Scope α ρ)
    (row : String → Path → ρ) (bound : Path → Option α) {t : Term} (h : t.isPlain = true) :
    t.content (R.withPlaces row bound) scope = t.content R scope := by
  unfold isPlain at h
  induction t with
  | constant value type => cases value <;> simp only [content, Reading.withPlaces]
  | parameter name => simp only [content]
  | member target label ih =>
    simp only [every, Bool.and_eq_true] at h
    simp only [content, ih h.2]
    rfl
  | unary op operand ih =>
    simp only [every, Bool.and_eq_true] at h
    simp only [content, ih h.2]
    rfl
  | binary op left right ihl ihr =>
    simp only [every, Bool.and_eq_true] at h
    simp only [content, ihl h.1.2, ihr h.2]
    rfl
  | call receiver method arguments ihr iha =>
    simp only [every, Bool.and_eq_true, everyIn_iff] at h
    have hargs := valuesOf_congr id fun t ht => iha t ht (h.2 t ht)
    rw [List.map_id] at hargs
    simp only [content, ihr h.1.2, hargs]
    rfl
  | ownerCall method arguments _ => simp only [content]
  | object members ih =>
    simp only [every, Bool.and_eq_true, everyMember_iff] at h
    have hmembers := memberContents_congr id fun m hm => ih m hm (h.2 m hm)
    simp only [id, List.map_id'] at hmembers
    simp only [content, hmembers]
  | conditional test whenTrue whenFalse _ _ _ => simp only [content]
  | lambda q body _ => simp only [content]
  | entity name path => simp [every, isNoPlace] at h
  | binding path => simp [every, isNoPlace] at h

end EntityQuery
