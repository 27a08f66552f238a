import EntityQuery.Term.Basic

/-!
Substitution of a term for a parameter.

* `Term.subst` -- every free occurrence of a parameter is replaced; a lambda with a parameter of
  the same name is left as it is;
* `Lambda.apply` -- the body of a lambda with an argument for its parameter;
* `Term.substMembers_eq_map`, `Term.substAll_eq_map` -- lists are substituted item by item.
-/
namespace EntityQuery

namespace Term

mutual
/-- The term with a replacement for every free occurrence of a parameter. -/
def subst (name : String) (replacement : Term) : Term → Term
  | .parameter p => if p = name then replacement else .parameter p
  | .constant value type => .constant value type
  | .member target label => .member (subst name replacement target) label
  | .unary op operand => .unary op (subst name replacement operand)
  | .binary op left right =>
    .binary op (subst name replacement left) (subst name replacement right)
  | .call receiver method arguments =>
    .call (subst name replacement receiver) method (substAll name replacement arguments)
  | .ownerCall method arguments => .ownerCall method (substAll name replacement arguments)
  | .object members => .object (substMembers name replacement members)
  | .conditional test whenTrue whenFalse =>
    .conditional (subst name replacement test) (subst name replacement whenTrue)
      (subst name replacement whenFalse)
  | .lambda p body => if p = name then .lambda p body else .lambda p (subst name replacement body)
  | .entity e path => .entity e path
  | .binding path => .binding path

/-- The substitution in each of the terms. -/
def substAll (name : String) (replacement : Term) : List Term → List Term
  | [] => []
  | t :: rest => subst name replacement t :: substAll name replacement rest

/-- The substitution in each of the members. -/
def substMembers (name : String) (replacement : Term) :
    List (String × Term) → List (String × Term)
  | [] => []
  | (label, t) :: rest =>
    (label, subst name replacement t) :: substMembers name replacement rest
end

theorem substAll_eq_map (name : String) (r : Term) (ts : List Term) :
    substAll name r ts = ts.map (subst name r) := by
  induction ts with
  | nil => rfl
  | cons t ts ih => simp [substAll, ih]

theorem substMembers_eq_map (name : String) (r : Term) (ms : List (String × Term)) :
    substMembers name r ms = ms.map fun m => (m.1, subst name r m.2) := by
  induction ms with
  | nil => rfl
  | cons m ms ih => simp [substMembers, ih]

end Term

/-- The body with the argument for the parameter. -/
def Lambda.apply (l : Lambda) (argument : Term) : Term := Term.subst l.parameter argument l.body

end EntityQuery
