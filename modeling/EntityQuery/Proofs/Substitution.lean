import EntityQuery.Proofs.Terms
import EntityQuery.Proofs.Rollback
import Mathlib.Data.List.Basic

/-!
The laws of substitution.

A lambda inside a term hides its own parameter, and nothing is renamed on the way into it. That is
safe as long as what is put in is closed, and the rows of queries are: a projection builds them from
whole rows, values and object constructions only.

* `Term.free_subst` -- the free parameters after a substitution;
* `Term.subst_of_not_mem_free` -- a parameter that is not free is not replaced;
* `Term.subst_comm` -- substitutions for two parameters can change places;
* `Term.avoids`, `Lambda.renamed` -- a name that stands nowhere in a term, and a lambda with such a
  name for its parameter;
* `Lambda.apply_renamed` -- **the name of the parameter does not count**;
* `Context.attemptAll_closed` -- the rows that operators lead to are closed;
* `Context.ActAlike` -- two operators that do the same to a query;
* `Term.substitution_laws` -- all of it.
-/
namespace EntityQuery

namespace Term

/-! ## 1. Free parameters -/

/-- **The free parameters after a substitution** of a closed term are those there were, in the same
    order and without the parameter that was replaced. -/
theorem free_subst (name : String) {r : Term} (hr : r.free = []) (t : Term) :
    (subst name r t).free = t.free.filter (· ≠ name) := by
  induction t with
  | parameter p =>
    rw [subst]
    split
    · rename_i hp
      simp [free, hr, hp]
    · rename_i hp
      simp [free, hp]
  | member target label ih => rw [subst, free, free, ih]
  | unary op operand ih => rw [subst, free, free, ih]
  | binary op left right ihl ihr => rw [subst, free, free, ihl, ihr, List.filter_append]
  | call receiver method arguments ihr iha =>
    rw [subst, free, free, ihr, List.filter_append, freeIn_eq_flatMap, freeIn_eq_flatMap,
      substAll_eq_map, List.flatMap_map, List.filter_flatMap]
    exact congrArg (_ ++ ·) (List.flatMap_congr iha)
  | ownerCall method arguments iha =>
    rw [subst, free, free, freeIn_eq_flatMap, freeIn_eq_flatMap, substAll_eq_map,
      List.flatMap_map, List.filter_flatMap]
    exact List.flatMap_congr iha
  | object members ih =>
    rw [subst, free, free, freeMembers_eq_flatMap, freeMembers_eq_flatMap, substMembers_eq_map,
      List.flatMap_map, List.filter_flatMap]
    exact List.flatMap_congr ih
  | conditional test whenTrue whenFalse ihc ihw ihf =>
    rw [subst, free, free, ihc, ihw, ihf, List.filter_append, List.filter_append]
  | lambda p body ih =>
    rw [subst]
    split
    · -- the lambda hides the parameter, so it is not among the free ones in any case
      rename_i hp
      subst hp
      rw [free, List.filter_filter]
      simp
    · rw [free, free, ih, List.filter_comm]
  | constant _ _ | entity _ _ | binding _ => rfl

/-- **A parameter that is not free is not replaced.** -/
theorem subst_of_not_mem_free {name : String} (r : Term) {t : Term} (h : name ∉ t.free) :
    subst name r t = t := by
  induction t with
  | parameter p =>
    have hp : p ≠ name := fun heq => h (by simp [free, heq])
    rw [subst, if_neg hp]
  | member target label ih => rw [subst, ih h]
  | unary op operand ih => rw [subst, ih h]
  | binary op left right ihl ihr =>
    simp only [free, List.mem_append, not_or] at h
    rw [subst, ihl h.1, ihr h.2]
  | call receiver method arguments ihr iha =>
    simp only [free, freeIn_eq_flatMap, List.mem_append, List.mem_flatMap, not_or, not_exists,
      not_and] at h
    rw [subst, ihr h.1, substAll_eq_map, List.map_eq_self_of_forall fun t ht => iha t ht (h.2 t ht)]
  | ownerCall method arguments iha =>
    simp only [free, freeIn_eq_flatMap, List.mem_flatMap, not_exists, not_and] at h
    rw [subst, substAll_eq_map, List.map_eq_self_of_forall fun t ht => iha t ht (h t ht)]
  | object members ih =>
    simp only [free, freeMembers_eq_flatMap, List.mem_flatMap, not_exists, not_and] at h
    have hsame : ∀ m ∈ members, (m.1, subst name r m.2) = m := fun m hm => by rw [ih m hm (h m hm)]
    rw [subst, substMembers_eq_map, List.map_eq_self_of_forall hsame]
  | conditional test whenTrue whenFalse ihc ihw ihf =>
    simp only [free, List.mem_append, not_or] at h
    rw [subst, ihc h.1.1, ihw h.1.2, ihf h.2]
  | lambda p body ih =>
    rw [subst]
    split
    · rfl
    · rename_i hp
      have hbody : name ∉ body.free := fun hmem =>
        h (List.mem_filter.mpr ⟨hmem, decide_eq_true (Ne.symm hp)⟩)
      rw [ih hbody]
  | constant _ _ | entity _ _ | binding _ => rfl

/-- Nothing is replaced in a closed term. -/
theorem subst_of_closed (name : String) (r : Term) {t : Term} (h : t.free = []) :
    subst name r t = t :=
  subst_of_not_mem_free r (by simp [h])

/-! ## 2. Two substitutions -/

/-- **Substitutions of closed terms for two parameters can change places.** -/
theorem subst_comm {p q : String} (hpq : p ≠ q) {r s : Term} (hr : r.free = []) (hs : s.free = [])
    (t : Term) : subst q s (subst p r t) = subst p r (subst q s t) := by
  induction t with
  | parameter x =>
    by_cases hxp : x = p
    · have hxq : x ≠ q := fun heq => hpq (hxp.symm.trans heq)
      rw [subst, subst, if_pos hxp, if_neg hxq, subst, if_pos hxp, subst_of_closed q s hr]
    · by_cases hxq : x = q
      · rw [subst, subst, if_neg hxp, if_pos hxq, subst, if_pos hxq, subst_of_closed p r hs]
      · rw [subst, subst, if_neg hxp, if_neg hxq, subst, subst, if_neg hxp, if_neg hxq]
  | member target label ih => simp only [subst, ih]
  | unary op operand ih => simp only [subst, ih]
  | binary op left right ihl ihr => simp only [subst, ihl, ihr]
  | call receiver method arguments ihr iha =>
    simp only [subst, ihr, substAll_eq_map, List.map_map, call.injEq, true_and]
    exact List.map_congr_left iha
  | ownerCall method arguments iha =>
    simp only [subst, substAll_eq_map, List.map_map, ownerCall.injEq, true_and]
    exact List.map_congr_left iha
  | object members ih =>
    simp only [subst, substMembers_eq_map, List.map_map, object.injEq]
    exact List.map_congr_left fun m hm => congrArg (Prod.mk m.1) (ih m hm)
  | conditional test whenTrue whenFalse ihc ihw ihf => simp only [subst, ihc, ihw, ihf]
  | lambda x body ih =>
    -- a lambda that hides one of the two parameters is open to the other
    by_cases hxp : x = p
    · have hxq : x ≠ q := fun heq => hpq (hxp.symm.trans heq)
      simp only [subst, if_pos hxp, if_neg hxq]
    · by_cases hxq : x = q
      · simp only [subst, if_neg hxp, if_pos hxq]
      · simp only [subst, if_neg hxp, if_neg hxq, ih]
  | constant _ _ | entity _ _ | binding _ => rfl

/-! ## 3. Other names for the parameter -/

/-- A node that neither refers to a name nor binds it. -/
def isUnnamed (name : String) : Term → Bool
  | .parameter p => p ≠ name
  | .lambda p _ => p ≠ name
  | _ => true

/-- The name stands nowhere in the term, neither as a reference nor as the parameter of a lambda. -/
def avoids (name : String) (t : Term) : Bool := t.every (isUnnamed name)

/-- A name that stands nowhere in a term is not free in it. -/
theorem not_mem_free_of_avoids {name : String} {t : Term} (h : t.avoids name = true) :
    name ∉ t.free := by
  induction t with
  | parameter p =>
    have hp : p ≠ name := of_decide_eq_true h
    simpa [free] using hp.symm
  | member target label ih =>
    simp only [avoids, every, Bool.and_eq_true] at h
    exact ih h.2
  | unary op operand ih =>
    simp only [avoids, every, Bool.and_eq_true] at h
    exact ih h.2
  | binary op left right ihl ihr =>
    simp only [avoids, every, Bool.and_eq_true] at h
    simp only [free, List.mem_append, not_or]
    exact ⟨ihl h.1.2, ihr h.2⟩
  | call receiver method arguments ihr iha =>
    simp only [avoids, every, Bool.and_eq_true, everyIn_iff] at h
    simp only [free, freeIn_eq_flatMap, List.mem_append, List.mem_flatMap, not_or, not_exists, not_and]
    exact ⟨ihr h.1.2, fun t ht => iha t ht (h.2 t ht)⟩
  | ownerCall method arguments iha =>
    simp only [avoids, every, Bool.and_eq_true, everyIn_iff] at h
    simp only [free, freeIn_eq_flatMap, List.mem_flatMap, not_exists, not_and]
    exact fun t ht => iha t ht (h.2 t ht)
  | object members ih =>
    simp only [avoids, every, Bool.and_eq_true, everyMember_iff] at h
    simp only [free, freeMembers_eq_flatMap, List.mem_flatMap, not_exists, not_and]
    exact fun m hm => ih m hm (h.2 m hm)
  | conditional test whenTrue whenFalse ihc ihw ihf =>
    simp only [avoids, every, Bool.and_eq_true] at h
    simp only [free, List.mem_append, not_or]
    exact ⟨⟨ihc h.1.1.2, ihw h.1.2⟩, ihf h.2⟩
  | lambda p body ih =>
    simp only [avoids, every, Bool.and_eq_true] at h
    exact fun hmem => ih h.2 (List.mem_filter.mp hmem).1
  | constant _ _ | entity _ _ | binding _ => simp [free]

/-- **A new name for a parameter, and then something for the new name**, comes to the same as that
    for the parameter itself. What is put in need not be closed. -/
theorem subst_renamed {name : String} (p : String) (r : Term) {t : Term}
    (h : t.avoids name = true) : subst name r (subst p (.parameter name) t) = subst p r t := by
  induction t with
  | parameter x =>
    have hx : x ≠ name := of_decide_eq_true h
    by_cases hxp : x = p
    · simp [subst, hxp]
    · simp [subst, hxp, hx]
  | member target label ih =>
    simp only [avoids, every, Bool.and_eq_true] at h
    simp only [subst, ih h.2]
  | unary op operand ih =>
    simp only [avoids, every, Bool.and_eq_true] at h
    simp only [subst, ih h.2]
  | binary op left right ihl ihr =>
    simp only [avoids, every, Bool.and_eq_true] at h
    simp only [subst, ihl h.1.2, ihr h.2]
  | call receiver method arguments ihr iha =>
    simp only [avoids, every, Bool.and_eq_true, everyIn_iff] at h
    simp only [subst, ihr h.1.2, substAll_eq_map, List.map_map, call.injEq, true_and]
    exact List.map_congr_left fun t ht => iha t ht (h.2 t ht)
  | ownerCall method arguments iha =>
    simp only [avoids, every, Bool.and_eq_true, everyIn_iff] at h
    simp only [subst, substAll_eq_map, List.map_map, ownerCall.injEq, true_and]
    exact List.map_congr_left fun t ht => iha t ht (h.2 t ht)
  | object members ih =>
    simp only [avoids, every, Bool.and_eq_true, everyMember_iff] at h
    simp only [subst, substMembers_eq_map, List.map_map, object.injEq]
    exact List.map_congr_left fun m hm => congrArg (Prod.mk m.1) (ih m hm (h.2 m hm))
  | conditional test whenTrue whenFalse ihc ihw ihf =>
    simp only [avoids, every, Bool.and_eq_true] at h
    simp only [subst, ihc h.1.1.2, ihw h.1.2, ihf h.2]
  | lambda x body ih =>
    simp only [avoids, every, Bool.and_eq_true] at h
    have hx : x ≠ name := of_decide_eq_true h.1
    by_cases hxp : x = p
    · -- the lambda hides the parameter: nothing is renamed in it, and the new name is not there
      simp only [subst, if_pos hxp, if_neg hx,
        subst_of_not_mem_free r (not_mem_free_of_avoids h.2)]
    · simp only [subst, if_neg hxp, if_neg hx, ih h.2]
  | constant _ _ | entity _ _ | binding _ => rfl

end Term

namespace Lambda

/-- The name stands nowhere in the lambda. -/
def avoids (name : String) (l : Lambda) : Bool := l.parameter ≠ name && l.body.avoids name

/-- The lambda with another name for its parameter. -/
def renamed (name : String) (l : Lambda) : Lambda :=
  { parameter := name, body := Term.subst l.parameter (.parameter name) l.body }

/-- **The name of the parameter does not count.** -/
theorem apply_renamed {name : String} {l : Lambda} (h : l.avoids name = true) (r : Term) :
    (l.renamed name).apply r = l.apply r := by
  simp only [avoids, Bool.and_eq_true] at h
  exact Term.subst_renamed l.parameter r h.2

end Lambda

/-! ## 4. Closed rows -/

/-- Whatever attributes are in use, a result of the computation has a property. -/
def Makes {ε α : Type} (P : α → Prop) (x : Using ε α) : Prop := ∀ memo a, (x memo).1 = .ok a → P a

namespace Makes

variable {ε α β : Type} {P : α → Prop} {Q : β → Prop}

theorem pure {a : α} (h : P a) : Makes P (Pure.pure a : Using ε α) := by
  intro memo b hb
  cases hb
  exact h

theorem lift {e : Except ε α} (h : ∀ a, e = .ok a → P a) : Makes P (liftM e : Using ε α) :=
  fun _ a ha => h a ha

theorem bind {x : Using ε α} {f : α → Using ε β} (hx : Makes P x)
    (hf : ∀ a, P a → Makes Q (f a)) : Makes Q (x >>= f) := by
  intro memo b h
  rcases hafter : x memo with ⟨r, memo'⟩
  cases r with
  | error e =>
    rw [Using.bind_of_error hafter] at h
    cases h
  | ok a =>
    rw [Using.bind_of_ok hafter] at h
    exact hf a (hx memo a (congrArg Prod.fst hafter)) memo' b h

end Makes

namespace Context

variable {ctx : Context} {shape : Shape}

theorem bindValue_closed (path : Path) (t : Term) :
    Makes (fun b => b.row.free = []) (ctx.bindValue shape path t) := by
  intro memo b h
  unfold bindValue at h
  split at h
  · cases h
    rfl
  · cases h

theorem bindRow_closed (path : Path) (name : String) (bound : Path) (b : Bound Term)
    (h : bindRow shape path name bound = .ok b) : b.row.free = [] := by
  unfold bindRow at h
  split at h
  · cases h
    rfl
  · cases h

mutual
/-- **The row that a projection builds is closed**, whatever the term that is projected. -/
theorem bind_closed (path : Path) (t : Term) :
    Makes (fun b => b.row.free = []) (ctx.bind shape path t) := by
  rw [bind]
  split
  · rename_i members ht
    have := Term.sizeOf_members_lt ht
    exact .bind (bindMembers_closed path members) fun _ hb => .pure hb
  · exact .lift (bindRow_closed path _ _)
  · exact bindValue_closed path t.resolve
termination_by sizeOf t

theorem bindMembers_closed (path : Path) (members : List (String × Term)) :
    Makes (fun b => Term.freeMembers b.row = []) (ctx.bindMembers shape path members) := by
  match members with
  | [] =>
    rw [bindMembers]
    exact .pure rfl
  | (label, t) :: rest =>
    rw [bindMembers]
    refine .bind (bind_closed (path.append label) t) fun b hb => ?_
    refine .bind (bindMembers_closed path rest) fun bs hbs => .pure ?_
    rw [Term.freeMembers, hb, hbs]
    rfl
termination_by sizeOf members
end

/-- One operator keeps the row of a query closed, also if it fails. -/
theorem apply_closed {q : Query} (h : q.row.free = []) (op : Operator) :
    (ctx.apply op q).2.row.free = [] := by
  cases op with
  | filter l =>
    show (ctx.filter l q).2.row.free = []
    unfold filter
    split <;> exact h
  | project l =>
    show (ctx.project l q).2.row.free = []
    have hbound : Makes (fun b => b.row.free = []) (ctx.bind q.shape .root (l.apply q.row)) :=
      bind_closed .root (l.apply q.row)
    have hbound := hbound q.shape.memo
    unfold project
    generalize ctx.bind q.shape .root (l.apply q.row) q.shape.memo = after at hbound
    obtain ⟨r, memo⟩ := after
    cases r with
    | ok b => exact hbound b rfl
    | error fault => exact h
  | _ => exact h

/-- **The rows that operators lead to are closed.** -/
theorem attemptAll_closed {entity : String} {start : Query} (hstart : ctx.source entity = .ok start)
    (ops : List Operator) : (ctx.attemptAll ops start).row.free = [] := by
  have hclosed : start.row.free = [] := by
    unfold source at hstart
    cases hget : ctx.model.get entity with
    | error failure =>
      rw [hget] at hstart
      cases hstart
    | ok e =>
      rw [hget] at hstart
      cases hstart
      rfl
  clear hstart
  induction ops generalizing start with
  | nil => exact hclosed
  | cons op rest ih => exact ih (apply_closed hclosed op)

/-! ## 5. Operators with a renamed lambda -/

/-- Two operators do the same to a query: one succeeds if the other does, and they leave the same
    behind, also if they fail. -/
structure ActAlike (ctx : Context) (q : Query) (op op' : Operator) : Prop where
  succeeds : (ctx.apply op q).1 = .ok () ↔ (ctx.apply op' q).1 = .ok ()
  query : (ctx.apply op q).2 = (ctx.apply op' q).2

/-- What a filter does hangs on its lambda by what that comes to on the row. -/
theorem filter_actAlike {q : Query} {l l' : Lambda} (h : l.apply q.row = l'.apply q.row) :
    ctx.ActAlike q (.filter l) (.filter l') := by
  have hsame : (ctx.filter l q).2 = (ctx.filter l' q).2 ∧
      ((ctx.filter l q).1 = .ok () ↔ (ctx.filter l' q).1 = .ok ()) := by
    unfold filter
    rw [h]
    generalize ctx.lower q.shape (l'.apply q.row) q.shape.memo = after
    obtain ⟨r, memo⟩ := after
    cases r with
    | ok condition => exact ⟨rfl, Iff.rfl⟩
    | error cause => exact ⟨rfl, by simp⟩
  exact ⟨hsame.2, hsame.1⟩

/-- The same for a projection. -/
theorem project_actAlike {q : Query} {l l' : Lambda} (h : l.apply q.row = l'.apply q.row) :
    ctx.ActAlike q (.project l) (.project l') := by
  have hsame : (ctx.project l q).2 = (ctx.project l' q).2 ∧
      ((ctx.project l q).1 = .ok () ↔ (ctx.project l' q).1 = .ok ()) := by
    unfold project
    rw [h]
    generalize ctx.bind q.shape .root (l'.apply q.row) q.shape.memo = after
    obtain ⟨r, memo⟩ := after
    cases r with
    | ok bound => exact ⟨rfl, Iff.rfl⟩
    | error fault => exact ⟨rfl, by simp⟩
  exact ⟨hsame.2, hsame.1⟩

end Context

/-! ## 6. The laws -/

/-- **The laws of substitution.** Substituting a closed term takes the parameter from the free ones
    and does nothing if it is not free; substitutions for two parameters can change places; and a
    lambda whose parameter has got a name that stands nowhere in it comes to the same on every
    argument. So on every query that operators lead to, whose row is closed, a filter and a
    projection with the renamed lambda do what they do with the lambda itself. -/
theorem Term.substitution_laws (t : Term) {p q : String} (hpq : p ≠ q) {r s : Term}
    (hr : r.free = []) (hs : s.free = []) :
    (∀ name, name ∈ (subst p r t).free ↔ name ∈ t.free ∧ name ≠ p) ∧
    (p ∉ t.free → subst p r t = t) ∧
    subst q s (subst p r t) = subst p r (subst q s t) ∧
    ∀ (l : Lambda) (n : String), l.avoids n = true →
      (l.renamed n).apply r = l.apply r ∧
      ∀ (ctx : Context) (entity : String) (start : Query) (ops : List Operator),
        ctx.source entity = .ok start →
        (ctx.attemptAll ops start).row.free = [] ∧
        ctx.ActAlike (ctx.attemptAll ops start) (.filter (l.renamed n)) (.filter l) ∧
        ctx.ActAlike (ctx.attemptAll ops start) (.project (l.renamed n)) (.project l) := by
  refine ⟨fun name => ?_, fun hp => subst_of_not_mem_free r hp, subst_comm hpq hr hs t, ?_⟩
  · rw [free_subst p hr, List.mem_filter, decide_eq_true_eq]
  · intro l n hn
    refine ⟨Lambda.apply_renamed hn r, fun ctx entity start ops hstart => ?_⟩
    have happly := Lambda.apply_renamed hn (ctx.attemptAll ops start).row
    exact ⟨Context.attemptAll_closed hstart ops, Context.filter_actAlike happly,
      Context.project_actAlike happly⟩

/-- `p.Friends.Any(p => (p.Age < q))`: the inner lambda hides the parameter of the outer one. -/
def Term.shadowing : Term :=
  .call (.member (.parameter "p") "Friends") ⟨none, "Any"⟩
    [.lambda "p" (.binary .less (.member (.parameter "p") "Age") (.parameter "q"))]

/-- A lambda around it. -/
def Lambda.shadowing : Lambda := { parameter := "p", body := .shadowing }

/-- The age of a person as the only member. -/
def Lambda.onlyAge : Lambda where
  parameter := "p"
  body := .object [("Age", .member (.parameter "p") "Age")]

/-- One parameter that is free in places and hidden in others, one that is free inside the inner
    lambda, and one that stands nowhere; and a query that a failed filter and a projection lead
    to. -/
theorem Term.substitution_laws_of_shadowing :
    let row : Term := .entity "Person" .root
    let ten : Term := .ofLiteral (.int32 10)
    let ctx : Context := { model := .people }
    let query := ctx.attemptAll [.filter .unknownMember, .project .onlyAge] (.of .person)
    "p" ≠ "q" ∧ row.free = [] ∧ ten.free = [] ∧ shadowing.free = ["p", "q"] ∧
    subst "p" row shadowing = .call (.member row "Friends") ⟨none, "Any"⟩
      [.lambda "p" (.binary .less (.member (.parameter "p") "Age") (.parameter "q"))] ∧
    (∀ name, name ∈ (subst "p" row shadowing).free ↔ name ∈ shadowing.free ∧ name ≠ "p") ∧
    subst "q" ten (subst "p" row shadowing) = subst "p" row (subst "q" ten shadowing) ∧
    "z" ∉ shadowing.free ∧ subst "z" row shadowing = shadowing ∧
    Lambda.shadowing.avoids "x" = true ∧
    (Lambda.shadowing.renamed "x").apply row = Lambda.shadowing.apply row ∧
    ctx.source "Person" = .ok (.of .person) ∧ query.row.free = [] ∧
    ctx.ActAlike query (.filter (Lambda.shadowing.renamed "x")) (.filter .shadowing) ∧
    ctx.ActAlike query (.project (Lambda.shadowing.renamed "x")) (.project .shadowing) := by
  intro row ten ctx query
  have hpq : "p" ≠ "q" := by decide
  have hzq : "z" ≠ "q" := by decide
  have hfree : shadowing.free = ["p", "q"] := by decide
  have hz : "z" ∉ shadowing.free := by decide
  have hx : Lambda.shadowing.avoids "x" = true := by decide
  obtain ⟨hnames, -, hcomm, hrenamed⟩ := substitution_laws shadowing hpq (r := row) (s := ten) rfl rfl
  obtain ⟨-, hnothing, -⟩ := substitution_laws shadowing hzq (r := row) (s := ten) rfl rfl
  obtain ⟨happly, hqueries⟩ := hrenamed .shadowing "x" hx
  obtain ⟨hclosed, hfilter, hproject⟩ := hqueries ctx "Person" (.of .person)
    [.filter .unknownMember, .project .onlyAge] rfl
  exact ⟨hpq, rfl, rfl, hfree, rfl, hnames, hcomm, hz, hnothing hz, hx, happly, rfl, hclosed,
    hfilter, hproject⟩

end EntityQuery
