import EntityQuery.Term.Basic

/-!
Members of object constructions: `new { A = x }.A` is `x`.

* `Term.follow` -- the term that labels lead to, through object constructions;
* `Term.resolve` -- a term with the member accesses at its top looked through as far as possible;
* `Term.resolve_member` -- the rule: if the target resolves to an object with the member, the
  access resolves to what the member resolves to, and else it stays;
* `Term.sizeOf_resolve_le` -- resolving never makes a term larger.
-/
namespace EntityQuery

namespace Term

mutual
/-- The term that labels lead to from a term. With labels left to follow, only an object
    construction leads further. Without, a member access that leads nowhere is its own result. -/
def follow : Term → List String → Option Term
  | .member target label, [] =>
    match follow target [label] with
    | some t => some t
    | none => some (.member target label)
  | .member target label, l :: ls => follow target (label :: l :: ls)
  | .object members, l :: ls => followIn members l ls
  | t, [] => some t
  | _, _ :: _ => none

/-- The term that labels lead to from the members of an object. -/
def followIn : List (String × Term) → String → List String → Option Term
  | [], _, _ => none
  | (label, value) :: rest, l, ls => if label = l then follow value ls else followIn rest l ls
end

/-- The term with the member accesses at its top looked through. -/
def resolve (t : Term) : Term := (t.follow []).getD t

/-! ## 1. Following from the members of an object -/

theorem followIn_eq (members : List (String × Term)) (l : String) (ls : List String) :
    followIn members l ls = (memberNamed? l members).bind fun t => follow t ls := by
  induction members with
  | nil => simp [followIn, memberNamed?]
  | cons m rest ih =>
    obtain ⟨label, value⟩ := m
    by_cases h : label = l <;> simp [followIn, memberNamed?, h, ih]

theorem sizeOf_memberNamed?_lt {label : String} {t : Term} :
    ∀ {members : List (String × Term)}, memberNamed? label members = some t →
      sizeOf t < sizeOf members
  | [], h => by simp [memberNamed?] at h
  | (l, value) :: rest, h => by
    simp only [memberNamed?] at h
    split at h
    · cases h
      simp
      omega
    · have := sizeOf_memberNamed?_lt h
      simp
      omega

/-! ## 2. Sizes -/

theorem sizeOf_follow_le {r : Term} :
    ∀ (t : Term) (ls : List String), follow t ls = some r → sizeOf r ≤ sizeOf t := by
  refine follow.induct (fun t ls => follow t ls = some r → sizeOf r ≤ sizeOf t)
    (fun ms l ls => followIn ms l ls = some r → sizeOf r ≤ sizeOf ms) ?_ ?_ ?_ ?_ ?_ ?_ ?_ ?_ ?_
  · intro target label t ht ih h
    simp only [follow, ht] at h
    have := ih (ht.trans h)
    simp
    omega
  · intro target label ht _ h
    simp only [follow, ht, Option.some.injEq] at h
    simp [← h]
  · intro target label l ls ih h
    simp only [follow] at h
    have := ih h
    simp
    omega
  · intro members l ls ih h
    simp only [follow] at h
    have := ih h
    simp
    omega
  · intro t ht h
    rw [follow, Option.some.injEq] at h
    · simp [h]
    · exact ht
  · intro t l ls ht hm h
    rw [follow] at h
    · cases h
    · exact ht
    · exact hm
  · intro l ls h
    simp [followIn] at h
  · intro value rest l ls ih h
    simp only [followIn, if_true] at h
    have := ih h
    simp
    omega
  · intro label value rest l ls hl ih h
    simp only [followIn, hl, if_false] at h
    have := ih h
    simp
    omega

theorem sizeOf_resolve_le (t : Term) : sizeOf t.resolve ≤ sizeOf t := by
  unfold resolve
  cases h : t.follow [] with
  | none => simp
  | some r => exact sizeOf_follow_le t [] h

theorem sizeOf_members_lt {t : Term} {members : List (String × Term)}
    (h : t.resolve = .object members) : sizeOf members < sizeOf t := by
  have hle := sizeOf_resolve_le t
  rw [h] at hle
  simp at hle
  omega

theorem sizeOf_selected_lt {target selected : Term} {label : String}
    {members : List (String × Term)} (ht : target.resolve = .object members)
    (hs : memberNamed? label members = some selected) : sizeOf selected < sizeOf target :=
  Nat.lt_trans (sizeOf_memberNamed?_lt hs) (sizeOf_members_lt ht)

/-! ## 3. The rule -/

/-- A term that is no member access resolves to itself. -/
theorem resolve_of_not_member {t : Term} (h : ∀ target label, t ≠ .member target label) :
    t.resolve = t := by
  unfold resolve
  rw [follow]
  · rfl
  · exact fun target label e => h target label e

theorem follow_nil (t : Term) : t.follow [] = some t.resolve := by
  unfold resolve
  cases t with
  | member target label =>
    unfold follow
    split <;> rfl
  | _ => simp [follow]

theorem resolve_member_eq_getD (target : Term) (label : String) :
    (Term.member target label).resolve =
      (target.follow [label]).getD (.member target label) := by
  simp only [resolve]
  rw [follow]
  cases target.follow [label] <;> rfl

/-- Labels lead on from a term as they lead on from what it resolves to. -/
theorem follow_cons (t : Term) (l : String) (ls : List String) :
    t.follow (l :: ls) =
      match t.resolve with
      | .object members => followIn members l ls
      | _ => none := by
  match t with
  | .member target label =>
    have ih := follow_cons target label
    rw [resolve_member_eq_getD]
    simp only [follow]
    rw [ih, ih]
    split
    · rename_i members hm
      rw [followIn_eq, followIn_eq]
      cases hs : memberNamed? label members with
      | none => simp
      | some selected =>
        have := sizeOf_selected_lt hm hs
        simp only [Option.bind_some, follow_nil, Option.getD_some]
        exact follow_cons selected l ls
    · rfl
  | .object members => simp [follow, resolve]
  | .constant _ _ | .parameter _ | .unary _ _ | .binary _ _ _ | .call _ _ _ | .ownerCall _ _
  | .conditional _ _ _ | .lambda _ _ | .entity _ _ | .binding _ => simp [follow, resolve]
termination_by sizeOf t

/-- A member access resolves to what the member of the target resolves to, if the target resolves to
    an object that has it; else it stays as it is. -/
theorem resolve_member (target : Term) (label : String) :
    (Term.member target label).resolve =
      match target.resolve with
      | .object members =>
        match memberNamed? label members with
        | some selected => selected.resolve
        | none => .member target label
      | _ => .member target label := by
  rw [resolve_member_eq_getD, follow_cons]
  split
  · rw [followIn_eq]
    split <;> simp_all [follow_nil]
  · rfl

end Term

end EntityQuery
