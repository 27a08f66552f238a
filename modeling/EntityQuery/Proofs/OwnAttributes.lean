import EntityQuery.Proofs.Rendering

/-!
Every attribute is one of the entity that is queried.

The attributes in use are kept by the names of their properties alone, while a lambda may name rows
of any entity at any path. A row is bound at a path only if it is the one of the source, and a
member of a row counts only if the row bound there is of the entity that is named; so no property of
another entity is ever taken into use.

* `AttributeRef.IsOf` -- the attribute of the property that an entity has under its name;
* `Memo.Own`, `Shape.Own` -- all attributes and all rows are of one entity;
* `Model.keeps_own` -- **all that terms stand for reads attributes of the source only**;
* `Query.Owning` -- the invariant, with its start, its step and its run;
* `Context.passes` -- the queries that a chain passes through;
* `Model.attributes_are_of_the_source` -- **they are all of the entity that the chain starts from**.
-/
namespace EntityQuery

/-! ## 1. Attributes and rows of an entity -/

/-- The attribute is that of the property which the entity has under the attribute's name. -/
def AttributeRef.IsOf (root : Entity) (ref : AttributeRef) : Prop :=
  ∃ p, root.find? ref.property.name = some p ∧ ref = .of p (.of root)

/-- An expression that reads attributes of the entity only. -/
def Expr.Own (root : Entity) (e : Expr) : Prop := ∀ ref ∈ e.attributes, ref.IsOf root

/-- The attributes in use are of the entity, each under the name of its property and only once. -/
structure Memo.Own (root : Entity) (memo : Memo) : Prop where
  attributes : ∀ entry ∈ memo, entry.2.IsOf root
  keys : ∀ entry ∈ memo, entry.1 = entry.2.property.name
  distinct : (memo.map Prod.fst).Nodup

/-- All that a shape reads is of the entity. -/
structure Shape.Own (root : Entity) (shape : Shape) : Prop where
  source_eq : shape.source = .of root
  condition : ∀ e, shape.filter = some e → e.Own root
  values : ∀ entry ∈ shape.projection, entry.2.Own root
  rows : ∀ entry ∈ shape.projection, ∀ ref, Expr.row ref ∈ entry.2.nodes →
    ref = { entity := root.name, source := shape.source }
  memo : shape.memo.Own root

namespace Expr

variable {root : Entity} {left right : Expr}

theorem own_of_attributes_eq_append {e : Expr} (h : e.attributes = left.attributes ++ right.attributes)
    (hl : left.Own root) (hr : right.Own root) : e.Own root := by
  intro ref href
  rw [h] at href
  rcases List.mem_append.mp href with href | href
  · exact hl ref href
  · exact hr ref href

theorem attributes_ofBinary (op : BinaryOp) (left right : Expr) :
    (ofBinary op left right).attributes = left.attributes ++ right.attributes := by
  unfold ofBinary
  split
  · simp only [join, attributes]
  · simp only [compare, join, attributes, attributes_assume]

theorem attributes_ofCall_pair (function : String) (left right : Expr) (type : ValueType) :
    (ofCall function [left, right] type).attributes = left.attributes ++ right.attributes := by
  simp [ofCall, attributes, attributesIn, attributes_assume]

theorem Own.ofBinary (op : BinaryOp) (hl : left.Own root) (hr : right.Own root) :
    (Expr.ofBinary op left right).Own root :=
  own_of_attributes_eq_append (attributes_ofBinary op left right) hl hr

theorem Own.ofUnary (op : UnaryOp) {e : Expr} (h : e.Own root) : (Expr.ofUnary op e).Own root := by
  intro ref href
  have href' : ref ∈ e.attributes := by simpa only [Expr.ofUnary, attributes] using href
  exact h ref href'

theorem Own.ofCall (function : String) (type : ValueType) (hl : left.Own root)
    (hr : right.Own root) : (Expr.ofCall function [left, right] type).Own root :=
  own_of_attributes_eq_append (attributes_ofCall_pair function left right type) hl hr

/-- The attribute of a property of the entity is one of the entity's own. -/
theorem Own.attr {label : String} {p : Property} (h : root.find? label = some p) :
    (Expr.attr (.of p (.of root))).Own root := by
  intro ref href
  have heq : ref = .of p (.of root) := by simpa only [attributes, List.mem_singleton] using href
  subst heq
  have hname : p.name = label := Entity.name_of_find? h
  subst hname
  exact ⟨p, h, rfl⟩

end Expr

/-! ## 2. Attributes in use -/

namespace Memo

variable {root : Entity} {memo : Memo}

theorem not_mem_keys_of_get? {name : String} (h : memo.get? name = none) :
    name ∉ memo.map Prod.fst := by
  induction memo with
  | nil => exact List.not_mem_nil
  | cons entry rest ih =>
    obtain ⟨n, ref⟩ := entry
    by_cases hn : n = name
    · simp [get?, hn] at h
    · simp only [get?, hn, if_false] at h
      intro hmem
      rcases List.mem_cons.mp hmem with hmem | hmem
      · exact hn hmem.symm
      · exact ih h hmem

theorem get?_of_mem (hn : (memo.map Prod.fst).Nodup) {entry : String × AttributeRef}
    (h : entry ∈ memo) : memo.get? entry.1 = some entry.2 := by
  induction memo with
  | nil => exact absurd h List.not_mem_nil
  | cons first rest ih =>
    obtain ⟨n, ref⟩ := first
    rw [List.map_cons, List.nodup_cons] at hn
    rcases List.mem_cons.mp h with rfl | h
    · simp [get?]
    · have hkey : entry.1 ∈ rest.map Prod.fst := List.mem_map_of_mem h
      have hne : n ≠ entry.1 := fun heq => hn.1 (heq ▸ hkey)
      simp only [get?, hne, if_false]
      exact ih hn.2 h

/-- A use adds a name only if it is not there. -/
theorem nodup_use (hn : (memo.map Prod.fst).Nodup) (p : Property) (source : Source) :
    ((memo.use p source).2.map Prod.fst).Nodup := by
  unfold use
  split
  · exact hn
  · rename_i hget
    have hnew := not_mem_keys_of_get? hget
    rw [List.map_append, List.nodup_append]
    refine ⟨hn, by simp, fun name hname other hother heq => ?_⟩
    have hp : other = p.name := List.mem_singleton.mp hother
    rw [heq, hp] at hname
    exact hnew hname

/-- Faithful attributes with distinct names are the entity's own. -/
theorem Faithful.own (hf : memo.Faithful root) (hn : (memo.map Prod.fst).Nodup) :
    memo.Own root := by
  have hentry : ∀ entry ∈ memo, entry.2.IsOf root ∧ entry.1 = entry.2.property.name := by
    intro entry hmem
    obtain ⟨p, hp, href⟩ := hf entry.1 entry.2 (get?_of_mem hn hmem)
    have hname : entry.2.property.name = entry.1 := by
      rw [href]
      exact Entity.name_of_find? hp
    exact ⟨⟨p, by rw [hname]; exact hp, href⟩, hname.symm⟩
  exact ⟨fun entry h => (hentry entry h).1, fun entry h => (hentry entry h).2, hn⟩

/-- What was in use earlier is the entity's own if what is in use later is. -/
theorem Own.of_beginning {earlier : Memo} (h : memo.Own root) (hp : earlier <+: memo) :
    earlier.Own root where
  attributes := fun entry hmem => h.attributes entry (hp.subset hmem)
  keys := fun entry hmem => h.keys entry (hp.subset hmem)
  distinct := h.distinct.sublist (hp.sublist.map Prod.fst)

end Memo

/-- **An operator keeps the names of the attributes in use distinct**, whether it succeeds or
    fails. -/
theorem Context.nodup_apply (ctx : Context) (op : Operator) {q : Query}
    (h : (q.shape.memo.map Prod.fst).Nodup) :
    ((ctx.apply op q).2.shape.memo.map Prod.fst).Nodup := by
  have huse : ∀ (memo : Memo) p, (memo.map Prod.fst).Nodup →
      ((memo.use p q.shape.source).2.map Prod.fst).Nodup := fun _ p hn => Memo.nodup_use hn p _
  rcases hop : ctx.apply op q with ⟨outcome, q'⟩
  cases outcome with
  | error failure =>
    have hsame := apply_error hop
    subst hsame
    exact h
  | ok _ =>
    cases op with
    | filter l =>
      have hlower := retains_lower huse ctx (l.apply q.row) q.shape.memo h
      have hfilter : ctx.filter l q = (.ok (), q') := hop
      unfold filter at hfilter
      split at hfilter
      · rename_i e memo heq
        rw [heq] at hlower
        have hq : q.filtered e memo = q' := congrArg Prod.snd hfilter
        rw [← hq, Query.filtered_memo]
        exact hlower
      · cases hfilter
    | project l =>
      have hbind := retains_bind huse ctx .root (l.apply q.row) q.shape.memo h
      have hproject : ctx.project l q = (.ok (), q') := hop
      unfold project at hproject
      split at hproject
      · rename_i b memo heq
        rw [heq] at hbind
        have hq : q.projected b memo = q' := congrArg Prod.snd hproject
        rw [← hq]
        exact hbind
      · cases hproject
    | _ => cases hop

/-! ## 3. All that terms stand for -/

theorem Projection.mem_of_get? {path : Path} {e : Expr} :
    ∀ {projection : Projection}, projection.get? path = some e → (path, e) ∈ projection
  | [], h => by cases h
  | (p, d) :: rest, h => by
    unfold get? at h
    split at h
    · rename_i hp
      cases h
      subst hp
      exact List.mem_cons_self
    · exact List.mem_cons_of_mem _ (mem_of_get? h)

/-- A label on a row of the entity means the property that the entity has of that name. -/
theorem NamedRow.IsOf.property?_eq {model : Model} {root : Entity} {r : NamedRow}
    (hfound : model.find? root.name = some root) (hr : r.IsOf root) {label : String} {p : Property}
    (hp : r.property? model label = some p) : root.find? label = some p := by
  unfold property? at hp
  split at hp
  · rename_i hany
    obtain ⟨ref, href, hname⟩ := (Option.any_eq_true _ _).mp hany
    have hroot : root.name = r.entity := by
      rw [hr ref href] at hname
      exact of_decide_eq_true hname
    rw [← hroot, hfound] at hp
    exact hp
  · cases hp

/-- **All that terms stand for reads attributes of the source only.** -/
theorem Model.keeps_own {model : Model} {root : Entity} {shape : Shape}
    (h : shape.Rooted model root) (hvalues : ∀ entry ∈ shape.projection, entry.2.Own root) :
    (model.context.reading shape).Keeps (Expr.Own root) (NamedRow.IsOf root) where
  literal _ := fun _ href => by simp [Context.reading, Expr.ofLiteral, Expr.attributes] at href
  null _ := fun _ href => by simp [Context.reading, Expr.null, Expr.attributes] at href
  field r label a hr ha := by
    obtain ⟨p, hp, rfl⟩ := Option.map_eq_some_iff.mp ha
    rw [h.source_eq]
    exact .attr (hr.property?_eq h.found hp)
  unary op a b ha hb := by
    rcases UnaryOp.lower_cases hb with ⟨_, rfl⟩ | ⟨_, rfl⟩ | ⟨_, rfl⟩
    · exact ha.ofUnary .not
    · exact ha.ofUnary .negate
    · exact ha
  binary op a b c ha hb hc := by
    obtain ⟨op', _, rfl⟩ := BinaryOp.lower_cases hc
    exact .ofBinary op' ha hb
  call a method as b ha has hb := by
    obtain ⟨argument, rfl, ⟨_, rfl⟩ | ⟨_, rfl⟩⟩ := Model.lowerCall_cases hb
    · exact .ofCall "BEGINS_WITH" .bool ha (has argument List.mem_cons_self)
    · exact .ofCall "CONTAINS" .bool ha (has argument List.mem_cons_self)
  row name path ref href := h.rowAt?_eq href
  bound path a ha := hvalues _ (Projection.mem_of_get? (Shape.valueAt_cases ha).1)

/-! ## 4. The invariant -/

/-- A query that can be rendered and reads nothing but its own entity. -/
structure Query.Owning (model : Model) (root : Entity) (q : Query) : Prop where
  renderable : q.Renderable model root
  own : q.shape.Own root

namespace Query.Owning

variable {model : Model} {root : Entity} {q : Query}

theorem start {entity : String} (h : model.find? entity = some root) :
    (Query.of root).Owning model root where
  renderable := .start h
  own :=
    { source_eq := rfl
      condition := fun _ he => by cases he
      values := fun _ hentry => absurd hentry List.not_mem_nil
      rows := fun _ hentry => absurd hentry List.not_mem_nil
      memo := (Memo.faithful_nil root).own List.nodup_nil }

/-- What a lambda stands for on the rows of the query. -/
theorem every_lambda (h : q.Owning model root) (l : Lambda) :
    (l.content (model.context.reading q.shape) (q.content model.context)).Every (Expr.Own root)
      (NamedRow.IsOf root) fun _ => True :=
  Query.every_lambda (Model.keeps_own h.renderable.grounded.rooted h.own.values) l

theorem filtered (h : q.Owning model root) {l : Lambda} {e : Expr}
    (he : model.context.condition? l q = some e) {memo : Memo} (hm : memo.Faithful root)
    (hn : (memo.map Prod.fst).Nodup) : (q.filtered e memo).Owning model root where
  renderable := h.renderable.filtered he hm
  own :=
    { source_eq := by rw [filtered_source]; exact h.own.source_eq
      condition := filtered_keeps (fun _ _ => .ofBinary .and) h.own.condition
        ((h.every_lambda l).of_value? he)
      values := by rw [filtered_projection]; exact h.own.values
      rows := by rw [filtered_projection, filtered_source]; exact h.own.rows
      memo := by rw [filtered_memo]; exact hm.own hn }

theorem projected (h : q.Owning model root) {l : Lambda} {b : Bound Term}
    (hb : model.context.projected? l q = some b) {memo : Memo} (hm : memo.Faithful root)
    (hn : (memo.map Prod.fst).Nodup) : (q.projected b memo).Owning model root := by
  have hrenderable := h.renderable.projected hb hm
  have hbinds := Content.binds_of_bound _ hb
  have hentries := hbinds.entry_cases (fun _ _ _ => trivial) (h.every_lambda l)
  have hscalars := hbinds.entry_cases (fun _ _ _ => trivial) (h.renderable.grounded.every_lambda l)
  refine ⟨hrenderable, h.own.source_eq, h.own.condition, fun entry hentry => ?_,
    fun entry hentry ref href => ?_, hm.own hn⟩
  · rcases hentries entry (Projection.mem_ofList hentry) with hown | ⟨_, ref, he, _⟩
    · exact hown
    · rw [he]
      exact fun _ href => by simp [Expr.attributes] at href
  · -- a value is scalar, so a row is an entry of its own
    rcases hscalars entry (Projection.mem_ofList hentry) with hscalar | ⟨_, bound, he, hof⟩
    · cases Expr.rowFree_of_isScalar hscalar _ href
    · have hnode : Expr.row ref = .row bound := by
        rw [he] at href
        exact List.mem_singleton.mp href
      cases hnode
      have hroot : ref = .of root := hof ref rfl
      rw [hroot]
      show _ = RowRef.mk root.name q.shape.source
      rw [h.own.source_eq]
      rfl

/-- **One operator keeps the invariant**, whether it succeeds or fails. -/
theorem apply (h : q.Owning model root) (op : Operator) :
    (model.context.apply op q).2.Owning model root := by
  have hnodup := model.context.nodup_apply op h.own.memo.distinct
  rcases Context.apply_cases h.renderable.grounded op with
    ⟨_, heq⟩ | ⟨l, e, memo, _, he, hm, heq⟩ | ⟨l, b, memo, _, hb, hm, heq⟩
  · rw [heq]
    exact h
  · rw [heq] at hnodup ⊢
    rw [filtered_memo] at hnodup
    exact h.filtered he hm hnodup
  · rw [heq] at hnodup ⊢
    exact h.projected hb hm hnodup

/-- Whatever attributes the next operator has taken into use by then, they are the entity's own. -/
theorem own_withMemo (h : q.Owning model root) {later memo : Memo} (hf : later.Faithful root)
    (hn : (later.map Prod.fst).Nodup) (hp : memo <+: later) : (q.withMemo memo).shape.Own root where
  source_eq := h.own.source_eq
  condition := h.own.condition
  values := h.own.values
  rows := h.own.rows
  memo := (hf.own hn).of_beginning hp

end Query.Owning

/-! ## 5. The queries of a chain -/

namespace Context

/-- The queries that operators lead through, up to what the first failure leaves behind. -/
def passesFrom (ctx : Context) : List Operator → Query → List Query
  | [], q => [q]
  | op :: rest, q =>
    q :: match ctx.apply op q with
      | (.ok (), after) => passesFrom ctx rest after
      | (.error _, after) => [after]

/-- The queries that a chain passes through. -/
def passes (ctx : Context) : Chain → List Query
  | .source entity :: ops =>
    match ctx.source entity with
    | .ok q => ctx.passesFrom ops q
    | .error _ => []
  | _ => []

variable {ctx : Context}

/-- **What every operator keeps holds of all the queries that operators lead through.** -/
theorem passesFrom_invariant {I : Query → Prop} (hI : ∀ q op, I q → I (ctx.apply op q).2)
    {ops : List Operator} {start q : Query} (h : I start) (hq : q ∈ ctx.passesFrom ops start) :
    I q := by
  induction ops generalizing start with
  | nil =>
    cases List.mem_singleton.mp hq
    exact h
  | cons op rest ih =>
    unfold passesFrom at hq
    rcases List.mem_cons.mp hq with rfl | hq
    · exact h
    · have hafter := hI start op h
      rcases hop : ctx.apply op start with ⟨outcome, after⟩
      rw [hop] at hq hafter
      cases outcome with
      | ok _ => exact ih hafter hq
      | error failure =>
        cases List.mem_singleton.mp hq
        exact hafter

theorem mem_passesFrom_of_applyAll {ops : List Operator} {start q : Query}
    (h : ctx.applyAll ops start = (.ok (), q)) : q ∈ ctx.passesFrom ops start := by
  induction ops generalizing start with
  | nil =>
    cases h
    exact List.mem_singleton_self _
  | cons op rest ih =>
    obtain ⟨after, hop, hrest⟩ := applyAll_cons_cases h
    unfold passesFrom
    rw [hop]
    exact List.mem_cons_of_mem _ (ih hrest)

/-- The query that a chain comes to is one that it passes through. -/
theorem mem_passes_of_run {chain : Chain} {q : Query} (h : ctx.run chain = .ok q) :
    q ∈ ctx.passes chain := by
  obtain ⟨entity, ops, start, rfl, hstart, happly⟩ := run_cases h
  rw [passes, hstart]
  exact mem_passesFrom_of_applyAll happly

/-- A chain passes through queries only if it starts from an entity. -/
theorem passes_cases {chain : Chain} {q : Query} (h : q ∈ ctx.passes chain) :
    ∃ entity ops start, chain = .source entity :: ops ∧ ctx.source entity = .ok start ∧
      q ∈ ctx.passesFrom ops start := by
  unfold passes at h
  split at h
  · rename_i entity ops
    split at h
    · rename_i start hstart
      exact ⟨entity, ops, start, rfl, hstart, h⟩
    · exact absurd h List.not_mem_nil
  · exact absurd h List.not_mem_nil

end Context

/-! ## 6. Every attribute is of the source -/

namespace Model

/-- **Every attribute is of the entity that the chain starts from**, whatever rows of whatever
    entities its lambdas name. The query that a chain comes to is among those it passes through;
    each of these reads attributes of that entity only and has no other whole rows bound; and the
    same holds at every moment while a term is lowered or projected on it. -/
theorem attributes_are_of_the_source (model : Model) (chain : Chain) :
    (∀ q, model.context.run chain = .ok q → q ∈ model.context.passes chain) ∧
    ∀ q ∈ model.context.passes chain, ∃ entity ops root,
      chain = .source entity :: ops ∧ model.find? entity = some root ∧ q.shape.Own root ∧
      ∀ t path memo,
        memo <+: (model.context.lower q.shape t q.shape.memo).2 ∨
          memo <+: (model.context.bind q.shape path t q.shape.memo).2 →
        (q.withMemo memo).shape.Own root := by
  refine ⟨fun q hrun => Context.mem_passes_of_run hrun, fun q hq => ?_⟩
  obtain ⟨entity, ops, start, rfl, hstart, hpass⟩ := Context.passes_cases hq
  obtain ⟨root, hroot, rfl⟩ := source_cases hstart
  have howning : q.Owning model root :=
    Context.passesFrom_invariant (fun _ op h => h.apply op) (.start hroot) hpass
  refine ⟨entity, ops, root, rfl, hroot, howning.own, fun t path memo hmemo => ?_⟩
  have huse : ∀ (memo : Memo) p, (memo.map Prod.fst).Nodup →
      ((memo.use p q.shape.source).2.map Prod.fst).Nodup := fun _ p hn => Memo.nodup_use hn p _
  have hrooted := howning.renderable.grounded.rooted
  have hfaithful := howning.renderable.grounded.faithful
  have hdistinct := howning.own.memo.distinct
  rcases hmemo with hmemo | hmemo
  · have hlater : Gives root (model.context.lower q.shape t) _ := Context.gives_lower hrooted t
    exact howning.own_withMemo (hlater _ hfaithful).2
      (Context.retains_lower huse model.context t _ hdistinct) hmemo
  · have hlater : Gives root (model.context.bind q.shape path t) _ :=
      Context.gives_bind hrooted path t
    exact howning.own_withMemo (hlater _ hfaithful).2
      (Context.retains_bind huse model.context path t _ hdistinct) hmemo

/-- People and orders, both of which have names, kept in attributes of different names. -/
def peopleAndOrders : Model where
  entities :=
    [{ name := "Person", properties := [{ name := "Name", type := .string }] },
      { name := "Order", properties := [{ name := "Name", type := .string, storedAs := some "title" }] }]

/-- The name that a term has is a given one. -/
def nameIs (t : Term) (name : String) : Term :=
  .binary .equal (.member t "Name") (.constant (some (.string name)) .string)

/-- People whose rows are then said to be orders, and asked for the names of orders. -/
def disguisedOrders : Chain :=
  [.source "Person",
    .filter { parameter := "p", body := nameIs (.parameter "p") "A" },
    .project { parameter := "p", body := .object [("who", .entity "Order" .root)] },
    .filter { parameter := "x", body := nameIs (.member (.parameter "x") "who") "B" }]

/-- Rows that are said to be orders stay rows of people, and the name of an order is not read. -/
theorem attributes_are_of_the_source_of_disguised :
    ∃ q ∈ peopleAndOrders.context.passes disguisedOrders,
      q.row.text = "new \x7b who = [Order @ who] \x7d" ∧
      q.shape.memo.map (fun entry => entry.2.property.storedAs) = ["Name"] ∧
      ∃ root, peopleAndOrders.find? "Person" = some root ∧ q.shape.Own root := by
  have hlast : (peopleAndOrders.context.passes disguisedOrders).getLast?.map (fun q =>
      (q.row.text, q.shape.memo.map fun entry => entry.2.property.storedAs)) =
      some ("new \x7b who = [Order @ who] \x7d", ["Name"]) := by decide +kernel
  obtain ⟨q, hq, heq⟩ := Option.map_eq_some_iff.mp hlast
  obtain ⟨htext, hnames⟩ := Prod.mk.inj heq
  have hmem := List.mem_of_getLast? hq
  obtain ⟨entity, ops, root, hchain, hroot, hown, _⟩ :=
    (attributes_are_of_the_source peopleAndOrders disguisedOrders).2 q hmem
  cases hchain
  exact ⟨q, hmem, htext, hnames, root, hroot, hown⟩

end Model

end EntityQuery
