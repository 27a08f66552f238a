import EntityQuery.Term.Resolve
import EntityQuery.Term.Substitution

/-!
Terms as trees.

* `Term.induction` -- induction over a term and the terms in its lists;
* `Term.every` -- every node of a term passes a test;
* `Term.isPlain` -- a term as a query writes it, without the nodes for rows and values that are
  bound at a path;
* `Term.hasDistinctLabels` -- no object construction in the term uses a label twice;
* `Term.free` -- the free parameters of a term;
* `Term.isNumber` -- a term that is a number.
-/

/-- A list all of whose items stay as they are stays so itself. -/
theorem List.map_eq_self_of_forall {α : Type} {f : α → α} {items : List α}
    (h : ∀ a ∈ items, f a = a) : items.map f = items :=
  (List.map_congr_left h).trans (List.map_id items)

namespace EntityQuery

namespace Term

/-! ## 1. Induction -/

/-- **Induction over terms**: for a call and an object construction the statement may be assumed of
    everything in the list. -/
@[elab_as_elim, induction_eliminator]
theorem induction {motive : Term → Prop}
    (constant : ∀ value type, motive (.constant value type))
    (parameter : ∀ name, motive (.parameter name))
    (member : ∀ target label, motive target → motive (.member target label))
    (unary : ∀ op operand, motive operand → motive (.unary op operand))
    (binary : ∀ op left right, motive left → motive right → motive (.binary op left right))
    (call : ∀ receiver method arguments, motive receiver → (∀ t ∈ arguments, motive t) →
      motive (.call receiver method arguments))
    (ownerCall : ∀ method arguments, (∀ t ∈ arguments, motive t) →
      motive (.ownerCall method arguments))
    (object : ∀ members, (∀ m ∈ members, motive m.2) → motive (.object members))
    (conditional : ∀ test whenTrue whenFalse, motive test → motive whenTrue → motive whenFalse →
      motive (.conditional test whenTrue whenFalse))
    (lambda : ∀ p body, motive body → motive (.lambda p body))
    (entity : ∀ name path, motive (.entity name path))
    (binding : ∀ path, motive (.binding path)) (t : Term) : motive t := by
  refine @Term.rec motive (fun ts => ∀ t ∈ ts, motive t) (fun ms => ∀ m ∈ ms, motive m.2)
    (fun m => motive m.2) constant parameter member unary binary call ownerCall object conditional
    lambda entity binding ?_ ?_ ?_ ?_ ?_ t
  · exact fun _ h => absurd h List.not_mem_nil
  · intro t ts ht hts u hu
    rcases List.mem_cons.mp hu with rfl | hu
    · exact ht
    · exact hts u hu
  · exact fun _ h => absurd h List.not_mem_nil
  · intro m ms hm hms n hn
    rcases List.mem_cons.mp hn with rfl | hn
    · exact hm
    · exact hms n hn
  · exact fun _ _ h => h

/-! ## 2. Tests on every node -/

mutual
/-- Every node of a term passes a test. -/
def every (test : Term → Bool) : Term → Bool
  | .constant value type => test (.constant value type)
  | .parameter name => test (.parameter name)
  | .member target label => test (.member target label) && every test target
  | .unary op operand => test (.unary op operand) && every test operand
  | .binary op left right =>
    test (.binary op left right) && every test left && every test right
  | .call receiver method arguments =>
    test (.call receiver method arguments) && every test receiver && everyIn test arguments
  | .ownerCall method arguments => test (.ownerCall method arguments) && everyIn test arguments
  | .object members => test (.object members) && everyMember test members
  | .conditional condition whenTrue whenFalse =>
    test (.conditional condition whenTrue whenFalse) && every test condition
      && every test whenTrue && every test whenFalse
  | .lambda p body => test (.lambda p body) && every test body
  | .entity name path => test (.entity name path)
  | .binding path => test (.binding path)

/-- Every node of the terms passes a test. -/
def everyIn (test : Term → Bool) : List Term → Bool
  | [] => true
  | t :: rest => every test t && everyIn test rest

/-- Every node of the members passes a test. -/
def everyMember (test : Term → Bool) : List (String × Term) → Bool
  | [] => true
  | (_, t) :: rest => every test t && everyMember test rest
end

theorem everyIn_iff {test : Term → Bool} {ts : List Term} :
    everyIn test ts = true ↔ ∀ t ∈ ts, every test t = true := by
  induction ts with
  | nil => simp [everyIn]
  | cons t ts ih => simp [everyIn, ih]

theorem everyMember_iff {test : Term → Bool} {ms : List (String × Term)} :
    everyMember test ms = true ↔ ∀ m ∈ ms, every test m.2 = true := by
  induction ms with
  | nil => simp [everyMember]
  | cons m ms ih => simp [everyMember, ih]

/-- Every node passes the test that all nodes pass. -/
theorem every_true (t : Term) : every (fun _ => true) t = true := by
  induction t with
  | call _ _ _ ihr iha => simpa [every, ihr, everyIn_iff] using iha
  | ownerCall _ _ iha => simpa [every, everyIn_iff] using iha
  | object _ ih => simpa [every, everyMember_iff] using ih
  | _ => simp [every, *]

/-- No node for something bound at a path. -/
def isNoPlace : Term → Bool
  | .entity _ _ => false
  | .binding _ => false
  | _ => true

/-- A term as a query writes it: nothing in it is bound at a path. -/
def isPlain (t : Term) : Bool := t.every isNoPlace

/-- An object construction with a label only once; any other node. -/
def labelsOnce : Term → Bool
  | .object members => decide (members.map Prod.fst).Nodup
  | _ => true

/-- No object construction in the term uses a label twice. -/
def hasDistinctLabels (t : Term) : Bool := t.every labelsOnce

/-! ## 3. Free parameters -/

mutual
/-- The free parameters of a term, from left to right and with repetitions. -/
def free : Term → List String
  | .constant _ _ => []
  | .parameter name => [name]
  | .member target _ => free target
  | .unary _ operand => free operand
  | .binary _ left right => free left ++ free right
  | .call receiver _ arguments => free receiver ++ freeIn arguments
  | .ownerCall _ arguments => freeIn arguments
  | .object members => freeMembers members
  | .conditional test whenTrue whenFalse => free test ++ free whenTrue ++ free whenFalse
  | .lambda p body => (free body).filter (· ≠ p)
  | .entity _ _ => []
  | .binding _ => []

/-- The free parameters of terms in turn. -/
def freeIn : List Term → List String
  | [] => []
  | t :: rest => free t ++ freeIn rest

/-- The free parameters of the members of an object in turn. -/
def freeMembers : List (String × Term) → List String
  | [] => []
  | (_, t) :: rest => free t ++ freeMembers rest
end

theorem freeIn_eq_flatMap (ts : List Term) : freeIn ts = ts.flatMap free := by
  induction ts with
  | nil => rfl
  | cons t ts ih => rw [freeIn, ih, List.flatMap_cons]

theorem freeMembers_eq_flatMap (ms : List (String × Term)) :
    freeMembers ms = ms.flatMap fun m => m.2.free := by
  induction ms with
  | nil => rfl
  | cons m ms ih => rw [freeMembers, ih, List.flatMap_cons]

end Term

/-! ## 4. Numbers -/

/-- A number. -/
def Literal.isNumber : Literal → Bool
  | .int32 _ => true
  | .int64 _ => true
  | .double _ => true
  | .decimal _ => true
  | _ => false

/-- A constant that is a number. -/
def Term.isNumber : Term → Bool
  | .constant (some v) _ => v.isNumber
  | _ => false

end EntityQuery
