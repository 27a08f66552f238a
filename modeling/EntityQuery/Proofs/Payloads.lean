import EntityQuery.Chain
import EntityQuery.Proofs.Terms

/-!
Chains that differ in the payloads of their literals only.

The literals of a chain are counted in the order in which they are written, null not among them.

* `Term.literals`, `Operator.literals`, `Chain.literals` -- the literals in their order;
* `Payloads` -- other literals of the same kinds, by number;
* `Term.withPayloads`, `Operator.withPayloads`, `Chain.withPayloads` -- everything as it is but for
  the literals;
* `Chain.literals_withPayloads` -- the literals are then the others, number by number;
* `Chain.withPayloads_same` -- if every literal stays, so does the chain.
-/
namespace EntityQuery

/-! ## 1. Literals -/

namespace Term

mutual
/-- The literals of a term as they are written. -/
def literals : Term → List Literal
  | .constant (some value) _ => [value]
  | .constant none _ => []
  | .parameter _ => []
  | .member target _ => literals target
  | .unary _ operand => literals operand
  | .binary _ left right => literals left ++ literals right
  | .call receiver _ arguments => literals receiver ++ literalsIn arguments
  | .ownerCall _ arguments => literalsIn arguments
  | .object members => memberLiterals members
  | .conditional test whenTrue whenFalse =>
    literals test ++ literals whenTrue ++ literals whenFalse
  | .lambda _ body => literals body
  | .entity _ _ => []
  | .binding _ => []

/-- The literals of terms in turn. -/
def literalsIn : List Term → List Literal
  | [] => []
  | t :: rest => literals t ++ literalsIn rest

/-- The literals of the members of an object. -/
def memberLiterals : List (String × Term) → List Literal
  | [] => []
  | (_, t) :: rest => literals t ++ memberLiterals rest
end

end Term

/-- The literals of a lambda. -/
def Lambda.literals (l : Lambda) : List Literal := l.body.literals

namespace Operator

mutual
/-- The literals of an operator, those of chains inside it among them. -/
def literals : Operator → List Literal
  | .source _ => []
  | .filter l => l.literals
  | .project l => l.literals
  | .order _ l _ => l.literals
  | .overRows _ l => l.literals
  | .aggregate _ l => l.toList.flatMap Lambda.literals
  | .pick _ l _ => l.toList.flatMap Lambda.literals
  | .elementAt t _ => t.literals
  | .withTerm _ t => t.literals
  | .defaultIfEmpty t => t.toList.flatMap Term.literals
  | .plain _ => []
  | .combine _ other => literalsIn other
  | .join _ inner outerKey innerKey result =>
    literalsIn inner ++ outerKey.literals ++ innerKey.literals ++ result.literals
  | .typed _ _ => []

/-- The literals of operators in turn. -/
def literalsIn : List Operator → List Literal
  | [] => []
  | op :: rest => literals op ++ literalsIn rest
end

end Operator

/-- The literals of a chain. -/
def Chain.literals (chain : Chain) : List Literal := Operator.literalsIn chain

/-! ## 2. Other payloads -/

/-- Other literals in place of those there are, each by its number and of the same kind. -/
structure Payloads where
  of : Nat → Literal → Literal
  type_of : ∀ i v, (of i v).type = v.type

namespace Payloads

/-- Every literal stays. -/
def same : Payloads where
  of _ v := v
  type_of _ _ := rfl

/-- The literals that take the place of given ones, which are counted from a number on. -/
def along (g : Payloads) (n : Nat) : List Literal → List Literal
  | [] => []
  | v :: vs => g.of n v :: along g (n + 1) vs

theorem along_append (g : Payloads) (n : Nat) (vs ws : List Literal) :
    g.along n (vs ++ ws) = g.along n vs ++ g.along (n + vs.length) ws := by
  induction vs generalizing n with
  | nil => rfl
  | cons v vs ih =>
    rw [List.cons_append, along, ih, along, List.length_cons, List.cons_append]
    congr 3
    omega

theorem length_along (g : Payloads) (n : Nat) (vs : List Literal) :
    (g.along n vs).length = vs.length := by
  induction vs generalizing n with
  | nil => rfl
  | cons v vs ih => rw [along, List.length_cons, ih, List.length_cons]

theorem getElem?_along (g : Payloads) (n : Nat) (vs : List Literal) (i : Nat) :
    (g.along n vs)[i]? = vs[i]?.map (g.of (n + i)) := by
  induction vs generalizing n i with
  | nil => rfl
  | cons v vs ih =>
    cases i with
    | zero => rfl
    | succ i =>
      rw [along, List.getElem?_cons_succ, List.getElem?_cons_succ, ih]
      congr 2
      omega

/-- Where the literals of two lists stay, those of each of them do. -/
theorem along_append_eq_self {g : Payloads} {n : Nat} {vs ws : List Literal}
    (h : g.along n (vs ++ ws) = vs ++ ws) :
    g.along n vs = vs ∧ g.along (n + vs.length) ws = ws := by
  rw [g.along_append] at h
  exact List.append_inj h (g.length_along n vs)

theorem along_same (n : Nat) (vs : List Literal) : same.along n vs = vs := by
  induction vs generalizing n with
  | nil => rfl
  | cons v vs ih =>
    rw [along, ih]
    rfl

end Payloads

namespace Term

mutual
/-- The term with other literals, where the first one has a number. -/
def withPayloads (g : Payloads) (n : Nat) : Term → Term
  | .constant (some value) type => .constant (some (g.of n value)) type
  | .constant none type => .constant none type
  | .parameter name => .parameter name
  | .member target label => .member (withPayloads g n target) label
  | .unary op operand => .unary op (withPayloads g n operand)
  | .binary op left right =>
    .binary op (withPayloads g n left) (withPayloads g (n + (literals left).length) right)
  | .call receiver method arguments =>
    .call (withPayloads g n receiver) method
      (withPayloadsIn g (n + (literals receiver).length) arguments)
  | .ownerCall method arguments => .ownerCall method (withPayloadsIn g n arguments)
  | .object members => .object (memberPayloads g n members)
  | .conditional test whenTrue whenFalse =>
    .conditional (withPayloads g n test) (withPayloads g (n + (literals test).length) whenTrue)
      (withPayloads g (n + (literals test ++ literals whenTrue).length) whenFalse)
  | .lambda p body => .lambda p (withPayloads g n body)
  | .entity name path => .entity name path
  | .binding path => .binding path

/-- Terms in turn with other literals. -/
def withPayloadsIn (g : Payloads) (n : Nat) : List Term → List Term
  | [] => []
  | t :: rest => withPayloads g n t :: withPayloadsIn g (n + (literals t).length) rest

/-- The members of an object with other literals. -/
def memberPayloads (g : Payloads) (n : Nat) : List (String × Term) → List (String × Term)
  | [] => []
  | (label, t) :: rest =>
    (label, withPayloads g n t) :: memberPayloads g (n + (literals t).length) rest
end

end Term

/-- The lambda with other literals. -/
def Lambda.withPayloads (g : Payloads) (n : Nat) (l : Lambda) : Lambda :=
  { l with body := l.body.withPayloads g n }

namespace Operator

mutual
/-- The operator with other literals. -/
def withPayloads (g : Payloads) (n : Nat) : Operator → Operator
  | .source entity => .source entity
  | .filter l => .filter (l.withPayloads g n)
  | .project l => .project (l.withPayloads g n)
  | .order continued l ascending => .order continued (l.withPayloads g n) ascending
  | .overRows kind l => .overRows kind (l.withPayloads g n)
  | .aggregate kind l => .aggregate kind (l.map (Lambda.withPayloads g n))
  | .pick kind l orDefault => .pick kind (l.map (Lambda.withPayloads g n)) orDefault
  | .elementAt t orDefault => .elementAt (t.withPayloads g n) orDefault
  | .withTerm kind t => .withTerm kind (t.withPayloads g n)
  | .defaultIfEmpty t => .defaultIfEmpty (t.map (Term.withPayloads g n))
  | .plain kind => .plain kind
  | .combine kind other => .combine kind (withPayloadsIn g n other)
  | .join grouped inner outerKey innerKey result =>
    .join grouped (withPayloadsIn g n inner)
      (outerKey.withPayloads g (n + (literalsIn inner).length))
      (innerKey.withPayloads g (n + (literalsIn inner ++ outerKey.literals).length))
      (result.withPayloads g
        (n + (literalsIn inner ++ outerKey.literals ++ innerKey.literals).length))
  | .typed kind type => .typed kind type

/-- Operators in turn with other literals. -/
def withPayloadsIn (g : Payloads) (n : Nat) : List Operator → List Operator
  | [] => []
  | op :: rest => withPayloads g n op :: withPayloadsIn g (n + (literals op).length) rest
end

end Operator

/-- The chain with other literals. -/
def Chain.withPayloads (g : Payloads) (chain : Chain) : Chain := Operator.withPayloadsIn g 0 chain

/-! ## 3. The literals afterwards -/

namespace Term

theorem literalsIn_withPayloadsIn (g : Payloads) :
    ∀ (ts : List Term) (n : Nat),
      (∀ t ∈ ts, ∀ n, (t.withPayloads g n).literals = g.along n t.literals) →
      literalsIn (withPayloadsIn g n ts) = g.along n (literalsIn ts)
  | [], _, _ => rfl
  | t :: ts, n, h => by
    rw [withPayloadsIn, literalsIn, literalsIn, h t List.mem_cons_self, g.along_append,
      literalsIn_withPayloadsIn g ts _ fun u hu => h u (List.mem_cons_of_mem t hu)]

theorem memberLiterals_memberPayloads (g : Payloads) :
    ∀ (ms : List (String × Term)) (n : Nat),
      (∀ m ∈ ms, ∀ n, (m.2.withPayloads g n).literals = g.along n m.2.literals) →
      memberLiterals (memberPayloads g n ms) = g.along n (memberLiterals ms)
  | [], _, _ => rfl
  | (label, t) :: ms, n, h => by
    rw [memberPayloads, memberLiterals, memberLiterals, h (label, t) List.mem_cons_self,
      g.along_append,
      memberLiterals_memberPayloads g ms _ fun m hm => h m (List.mem_cons_of_mem _ hm)]

/-- **The literals of a term with other payloads are the others**, number by number. -/
theorem literals_withPayloads (g : Payloads) (n : Nat) (t : Term) :
    (t.withPayloads g n).literals = g.along n t.literals := by
  induction t generalizing n with
  | constant value type => cases value <;> rfl
  | parameter name => rfl
  | member target label ih => exact ih n
  | unary op operand ih => exact ih n
  | binary op left right ihl ihr =>
    rw [withPayloads, literals, literals, ihl, ihr, g.along_append]
  | call receiver method arguments ihr iha =>
    rw [withPayloads, literals, literals, ihr, literalsIn_withPayloadsIn g _ _ iha, g.along_append]
  | ownerCall method arguments iha => exact literalsIn_withPayloadsIn g _ _ iha
  | object members ih => exact memberLiterals_memberPayloads g _ _ ih
  | conditional test whenTrue whenFalse iht ihw ihf =>
    rw [withPayloads, literals, literals, iht, ihw, ihf, g.along_append, g.along_append]
  | lambda p body ih => exact ih n
  | entity name path => rfl
  | binding path => rfl

/-! ## 4. Literals that stay -/

theorem withPayloadsIn_eq_self {g : Payloads} :
    ∀ {ts : List Term} {n : Nat},
      (∀ t ∈ ts, ∀ n, g.along n t.literals = t.literals → t.withPayloads g n = t) →
      g.along n (literalsIn ts) = literalsIn ts → withPayloadsIn g n ts = ts
  | [], _, _, _ => rfl
  | t :: ts, n, ht, h => by
    obtain ⟨hhead, htail⟩ := Payloads.along_append_eq_self h
    rw [withPayloadsIn, ht t List.mem_cons_self n hhead,
      withPayloadsIn_eq_self (fun u hu => ht u (List.mem_cons_of_mem t hu)) htail]

theorem memberPayloads_eq_self {g : Payloads} :
    ∀ {ms : List (String × Term)} {n : Nat},
      (∀ m ∈ ms, ∀ n, g.along n m.2.literals = m.2.literals → m.2.withPayloads g n = m.2) →
      g.along n (memberLiterals ms) = memberLiterals ms → memberPayloads g n ms = ms
  | [], _, _, _ => rfl
  | (label, t) :: ms, n, hm, h => by
    obtain ⟨hhead, htail⟩ := Payloads.along_append_eq_self h
    rw [memberPayloads, hm (label, t) List.mem_cons_self n hhead,
      memberPayloads_eq_self (fun m hm' => hm m (List.mem_cons_of_mem _ hm')) htail]

/-- If every literal of a term stays, so does the term. -/
theorem withPayloads_eq_self {g : Payloads} {n : Nat} {t : Term}
    (h : g.along n t.literals = t.literals) : t.withPayloads g n = t := by
  induction t generalizing n with
  | constant value type =>
    cases value with
    | none => rfl
    | some value =>
      have hvalue : [g.of n value] = [value] := h
      rw [withPayloads, List.singleton_inj.mp hvalue]
  | parameter name => rfl
  | member target label ih => rw [withPayloads, ih h]
  | unary op operand ih => rw [withPayloads, ih h]
  | binary op left right ihl ihr =>
    obtain ⟨hl, hr⟩ := Payloads.along_append_eq_self h
    rw [withPayloads, ihl hl, ihr hr]
  | call receiver method arguments ihr iha =>
    obtain ⟨hr, ha⟩ := Payloads.along_append_eq_self h
    rw [withPayloads, ihr hr, withPayloadsIn_eq_self (fun t ht _ => iha t ht) ha]
  | ownerCall method arguments iha =>
    rw [withPayloads, withPayloadsIn_eq_self (fun t ht _ => iha t ht) h]
  | object members ih =>
    rw [withPayloads, memberPayloads_eq_self (fun m hm _ => ih m hm) h]
  | conditional test whenTrue whenFalse iht ihw ihf =>
    obtain ⟨hboth, hf⟩ := Payloads.along_append_eq_self h
    obtain ⟨ht, hw⟩ := Payloads.along_append_eq_self hboth
    rw [withPayloads, iht ht, ihw hw, ihf hf]
  | lambda p body ih => rw [withPayloads, ih h]
  | entity name path => rfl
  | binding path => rfl

end Term

/-! ## 5. Operators and chains -/

theorem Lambda.literals_withPayloads (g : Payloads) (n : Nat) (l : Lambda) :
    (l.withPayloads g n).literals = g.along n l.literals :=
  Term.literals_withPayloads g n l.body

theorem Lambda.withPayloads_same (n : Nat) (l : Lambda) : l.withPayloads .same n = l := by
  rw [withPayloads, Term.withPayloads_eq_self (Payloads.along_same n _)]

namespace Operator

mutual
theorem literals_withPayloads (g : Payloads) (n : Nat) :
    ∀ op : Operator, (op.withPayloads g n).literals = g.along n op.literals
  | .source _ | .plain _ | .typed _ _ => rfl
  | .filter l | .project l | .order _ l _ | .overRows _ l => l.literals_withPayloads g n
  | .aggregate _ none | .pick _ none _ | .defaultIfEmpty none => rfl
  | .aggregate _ (some l) | .pick _ (some l) _ => by
    simpa [withPayloads, literals] using l.literals_withPayloads g n
  | .elementAt t _ | .withTerm _ t => t.literals_withPayloads g n
  | .defaultIfEmpty (some t) => by
    simpa [withPayloads, literals] using t.literals_withPayloads g n
  | .combine _ other => literalsIn_withPayloadsIn g n other
  | .join _ inner outerKey innerKey result => by
    rw [withPayloads, literals, literals, literalsIn_withPayloadsIn g n inner,
      outerKey.literals_withPayloads, innerKey.literals_withPayloads,
      result.literals_withPayloads, g.along_append, g.along_append, g.along_append]

theorem literalsIn_withPayloadsIn (g : Payloads) (n : Nat) :
    ∀ ops : List Operator, literalsIn (withPayloadsIn g n ops) = g.along n (literalsIn ops)
  | [] => rfl
  | op :: rest => by
    rw [withPayloadsIn, literalsIn, literalsIn, literals_withPayloads g n op,
      literalsIn_withPayloadsIn g _ rest, g.along_append]
end

mutual
theorem withPayloads_same (n : Nat) : ∀ op : Operator, op.withPayloads .same n = op
  | .source _ | .plain _ | .typed _ _ => rfl
  | .filter l | .project l | .order _ l _ | .overRows _ l => by
    rw [withPayloads, l.withPayloads_same]
  | .aggregate _ none | .pick _ none _ | .defaultIfEmpty none => rfl
  | .aggregate _ (some l) | .pick _ (some l) _ => by
    rw [withPayloads, Option.map_some, l.withPayloads_same]
  | .elementAt t _ | .withTerm _ t => by
    rw [withPayloads, t.withPayloads_eq_self (Payloads.along_same n _)]
  | .defaultIfEmpty (some t) => by
    rw [withPayloads, Option.map_some, t.withPayloads_eq_self (Payloads.along_same n _)]
  | .combine _ other => by rw [withPayloads, withPayloadsIn_same n other]
  | .join _ inner outerKey innerKey result => by
    rw [withPayloads, withPayloadsIn_same n inner, outerKey.withPayloads_same,
      innerKey.withPayloads_same, result.withPayloads_same]

theorem withPayloadsIn_same (n : Nat) : ∀ ops : List Operator, withPayloadsIn .same n ops = ops
  | [] => rfl
  | op :: rest => by rw [withPayloadsIn, withPayloads_same n op, withPayloadsIn_same _ rest]
end

end Operator

/-- **The literals of a chain with other payloads are the others**, number by number. -/
theorem Chain.literals_withPayloads (g : Payloads) (chain : Chain) :
    (chain.withPayloads g).literals = g.along 0 chain.literals :=
  Operator.literalsIn_withPayloadsIn g 0 chain

theorem Chain.withPayloads_same (chain : Chain) : chain.withPayloads .same = chain :=
  Operator.withPayloadsIn_same 0 chain

end EntityQuery
