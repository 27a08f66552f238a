import EntityQuery.Proofs.Parsed
import EntityQuery.Proofs.Reachable
import EntityQuery.Proofs.Rendering

/-!
When a whole row is lost.

The row of a query names whole rows by the paths where they are bound. A projection that passes one
on must find it there. Two members of an object with one label are bound at one path, and then the
second takes the place of the first; nothing else can take a row away.

* `Shape.holdsRow` -- the test that a node for a whole row has that row bound at its path;
* `Term.every_subst`, `Term.every_resolve` -- the nodes of a selector applied to the row;
* `Context.bind_losesNoRow` -- **where every row is bound, projecting loses none**;
* `Query.Anchored` -- the invariant: every whole row in the row of the query is bound;
* `Query.Anchored.apply`, `Query.Anchored.attemptAll` -- one operator, and operators in turn;
* `Model.rows_are_lost_by_repeated_labels` -- a text loses a row only by a label used twice;
* `Model.repeated_label_loses_row` -- and there is a text that does.
-/
namespace EntityQuery

/-! ## 1. Rows that are bound -/

/-- A node for a whole row has a row bound at its path; any other node passes. -/
def Shape.holdsRow (shape : Shape) : Term → Bool
  | .entity _ path => (shape.rowAt? path).isSome
  | _ => true

theorem Shape.holdsRow_congr {s s' : Shape} (hsource : s.source = s'.source)
    (hprojection : s.projection = s'.projection) : s.holdsRow = s'.holdsRow := by
  funext t
  cases t with
  | entity name path => simp only [holdsRow, rowAt?, hsource, hprojection]
  | _ => rfl

theorem Shape.holdsRow_of_isNoPlace (shape : Shape) {t : Term} (h : t.isNoPlace = true) :
    shape.holdsRow t = true := by
  cases t with
  | entity name path => cases h
  | _ => rfl

namespace Term

/-- A weaker test passes where a test does. -/
theorem every_imp {test test' : Term → Bool} (himp : ∀ t, test t = true → test' t = true) {t : Term}
    (h : t.every test = true) : t.every test' = true := by
  induction t with
  | constant _ _ | parameter _ | entity _ _ | binding _ => exact himp _ h
  | member _ _ ih | unary _ _ ih | lambda _ _ ih =>
    simp only [every, Bool.and_eq_true] at h ⊢
    exact ⟨himp _ h.1, ih h.2⟩
  | binary _ _ _ ihl ihr =>
    simp only [every, Bool.and_eq_true] at h ⊢
    exact ⟨⟨himp _ h.1.1, ihl h.1.2⟩, ihr h.2⟩
  | call _ _ _ ihr iha =>
    simp only [every, Bool.and_eq_true, everyIn_iff] at h ⊢
    exact ⟨⟨himp _ h.1.1, ihr h.1.2⟩, fun t ht => iha t ht (h.2 t ht)⟩
  | ownerCall _ _ iha =>
    simp only [every, Bool.and_eq_true, everyIn_iff] at h ⊢
    exact ⟨himp _ h.1, fun t ht => iha t ht (h.2 t ht)⟩
  | object _ ih =>
    simp only [every, Bool.and_eq_true, everyMember_iff] at h ⊢
    exact ⟨himp _ h.1, fun m hm => ih m hm (h.2 m hm)⟩
  | conditional _ _ _ iht ihw ihf =>
    simp only [every, Bool.and_eq_true] at h ⊢
    exact ⟨⟨⟨himp _ h.1.1.1, iht h.1.1.2⟩, ihw h.1.2⟩, ihf h.2⟩

/-- In a plain term, places come with the replacement only. -/
theorem every_subst {test : Term → Bool} (htest : ∀ t : Term, t.isNoPlace = true → test t = true)
    (p : String) {r t : Term} (hr : r.every test = true) (ht : t.isPlain = true) :
    (subst p r t).every test = true := by
  unfold isPlain at ht
  induction t with
  | constant value type => exact htest _ rfl
  | parameter name =>
    rw [subst]
    split
    · exact hr
    · exact htest _ rfl
  | member target label ih =>
    simp only [every, Bool.and_eq_true] at ht
    simp only [subst, every, Bool.and_eq_true]
    exact ⟨htest _ rfl, ih ht.2⟩
  | unary op operand ih =>
    simp only [every, Bool.and_eq_true] at ht
    simp only [subst, every, Bool.and_eq_true]
    exact ⟨htest _ rfl, ih ht.2⟩
  | binary op left right ihl ihr =>
    simp only [every, Bool.and_eq_true] at ht
    simp only [subst, every, Bool.and_eq_true]
    exact ⟨⟨htest _ rfl, ihl ht.1.2⟩, ihr ht.2⟩
  | call receiver method arguments ihr iha =>
    simp only [every, Bool.and_eq_true, everyIn_iff] at ht
    simp only [subst, every, Bool.and_eq_true, everyIn_iff, substAll_eq_map, List.forall_mem_map]
    exact ⟨⟨htest _ rfl, ihr ht.1.2⟩, fun u hu => iha u hu (ht.2 u hu)⟩
  | ownerCall method arguments iha =>
    simp only [every, Bool.and_eq_true, everyIn_iff] at ht
    simp only [subst, every, Bool.and_eq_true, everyIn_iff, substAll_eq_map, List.forall_mem_map]
    exact ⟨htest _ rfl, fun u hu => iha u hu (ht.2 u hu)⟩
  | object members ih =>
    simp only [every, Bool.and_eq_true, everyMember_iff] at ht
    simp only [subst, every, Bool.and_eq_true, everyMember_iff, substMembers_eq_map,
      List.forall_mem_map]
    exact ⟨htest _ rfl, fun m hm => ih m hm (ht.2 m hm)⟩
  | conditional condition whenTrue whenFalse ihc ihw ihf =>
    simp only [every, Bool.and_eq_true] at ht
    simp only [subst, every, Bool.and_eq_true]
    exact ⟨⟨⟨htest _ rfl, ihc ht.1.1.2⟩, ihw ht.1.2⟩, ihf ht.2⟩
  | lambda q body ih =>
    rw [subst]
    split
    · -- a lambda with a parameter of that name is left as it is
      exact every_imp htest ht
    · simp only [every, Bool.and_eq_true] at ht ⊢
      exact ⟨htest _ rfl, ih ht.2⟩
  | entity name path => cases ht
  | binding path => cases ht

theorem mem_of_memberNamed? {label : String} {t : Term} :
    ∀ {members : List (String × Term)}, memberNamed? label members = some t →
      (label, t) ∈ members
  | [], h => by cases h
  | (l, value) :: rest, h => by
    unfold memberNamed? at h
    split at h
    · rename_i hl
      cases h
      rw [hl]
      exact List.mem_cons_self
    · exact List.mem_cons_of_mem _ (mem_of_memberNamed? h)

/-- Looking through member accesses brings no new nodes. -/
theorem every_resolve {test : Term → Bool} (t : Term) (h : t.every test = true) :
    t.resolve.every test = true := by
  match t with
  | .member target label =>
    have htarget : target.every test = true := by
      simp only [every, Bool.and_eq_true] at h
      exact h.2
    have ih := every_resolve target htarget
    rw [resolve_member]
    split
    · rename_i members hm
      split
      · rename_i selected hs
        have := sizeOf_selected_lt hm hs
        rw [hm] at ih
        simp only [every, Bool.and_eq_true, everyMember_iff] at ih
        exact every_resolve selected (ih.2 _ (mem_of_memberNamed? hs))
      · exact h
    · exact h
  | .constant _ _ | .parameter _ | .unary _ _ | .binary _ _ _ | .call _ _ _ | .ownerCall _ _
  | .object _ | .conditional _ _ _ | .lambda _ _ | .entity _ _ | .binding _ =>
    rw [resolve_of_not_member fun _ _ e => by cases e]
    exact h
termination_by sizeOf t

end Term

/-! ## 2. Projecting -/

/-- Whatever attributes are in use, no row is lost. -/
def LosesNoRow {α : Type} (x : Using BindFault α) : Prop :=
  ∀ memo entity path, (x memo).1 ≠ .error (.lostRow entity path)

namespace LosesNoRow

variable {α β : Type}

theorem pure (a : α) : LosesNoRow (Pure.pure a : Using BindFault α) := by
  intro memo entity path h
  cases h

theorem lift {e : Except BindFault α} (h : ∀ entity path, e ≠ .error (.lostRow entity path)) :
    LosesNoRow (liftM e : Using BindFault α) :=
  fun _ => h

theorem bind {x : Using BindFault α} {f : α → Using BindFault β} (hx : LosesNoRow x)
    (hf : ∀ a, LosesNoRow (f a)) : LosesNoRow (x >>= f) := by
  intro memo entity path
  have hfirst := hx memo entity path
  show (ExceptT.bindCont f (x memo).1 (x memo).2).1 ≠ _
  generalize x memo = after at hfirst
  obtain ⟨r, memo'⟩ := after
  cases r with
  | error fault => exact fun h => hfirst (by cases h; rfl)
  | ok a => exact hf a memo' entity path

end LosesNoRow

namespace Context

variable {ctx : Context} {shape : Shape}

theorem bindValue_losesNoRow (path : Path) (t : Term) :
    LosesNoRow (ctx.bindValue shape path t) := by
  intro memo entity lost h
  unfold bindValue at h
  split at h
  · cases h
  · cases h

theorem bindRow_losesNoRow {path bound : Path} {name : String}
    (h : (shape.rowAt? bound).isSome = true) (entity : String) (lost : Path) :
    bindRow shape path name bound ≠ .error (.lostRow entity lost) := by
  intro hlost
  obtain ⟨ref, href⟩ := Option.isSome_iff_exists.mp h
  unfold bindRow at hlost
  rw [href] at hlost
  cases hlost

mutual
/-- **Where every row of a term is bound, projecting it loses none**, whatever the rules for
    calls. -/
theorem bind_losesNoRow (path : Path) (t : Term) (h : t.every shape.holdsRow = true) :
    LosesNoRow (ctx.bind shape path t) := by
  -- member accesses are looked through first, and that brings no new rows
  have hresolved := Term.every_resolve t h
  rw [bind]
  split
  · rename_i members ht
    have := Term.sizeOf_members_lt ht
    rw [ht] at hresolved
    simp only [Term.every, Bool.and_eq_true] at hresolved
    exact .bind (bindMembers_losesNoRow path members hresolved.2) fun _ => .pure _
  · rename_i name bound ht
    rw [ht] at hresolved
    exact .lift (bindRow_losesNoRow hresolved)
  · exact bindValue_losesNoRow path t.resolve
termination_by sizeOf t

theorem bindMembers_losesNoRow (path : Path) (members : List (String × Term))
    (h : Term.everyMember shape.holdsRow members = true) :
    LosesNoRow (ctx.bindMembers shape path members) := by
  match members with
  | [] =>
    rw [bindMembers]
    exact .pure _
  | (label, t) :: rest =>
    simp only [Term.everyMember, Bool.and_eq_true] at h
    rw [bindMembers]
    exact .bind (bind_losesNoRow (path.append label) t h.1) fun _ =>
      .bind (bindMembers_losesNoRow path rest h.2) fun _ => .pure _
termination_by sizeOf members
end

/-- The only operator that can lose a row is a projection. -/
theorem project_of_lostRow {op : Operator} {q : Query} {entity : String} {path : Path}
    (h : (ctx.apply op q).1 = .error (.lostRow entity path)) :
    ∃ l, op = .project l ∧
      (ctx.bind q.shape .root (l.apply q.row) q.shape.memo).1 = .error (.lostRow entity path) := by
  cases op with
  | filter l =>
    replace h : (ctx.filter l q).1 = .error (.lostRow entity path) := h
    unfold filter at h
    split at h
    · cases h
    · cases h
  | project l =>
    replace h : (ctx.project l q).1 = .error (.lostRow entity path) := h
    refine ⟨l, rfl, ?_⟩
    unfold project at h
    split at h
    · cases h
    · rename_i fault memo hbind
      rw [hbind]
      cases fault with
      | obstacle cause => cases h
      | lostRow entity' path' =>
        cases h
        rfl
  | _ => cases h

/-- **An operator loses no row** if every row in the row of the query is bound, and the lambda is
    plain in case it is a projection. -/
theorem apply_losesNoRow {op : Operator} {q : Query}
    (hrows : q.row.every q.shape.holdsRow = true)
    (hop : ∀ l, op = .project l → l.body.isPlain = true) (entity : String) (path : Path) :
    (ctx.apply op q).1 ≠ .error (.lostRow entity path) := by
  intro h
  obtain ⟨l, rfl, hbind⟩ := project_of_lostRow h
  have happly : (l.apply q.row).every q.shape.holdsRow = true :=
    Term.every_subst (fun _ ht => q.shape.holdsRow_of_isNoPlace ht) l.parameter hrows (hop l rfl)
  exact bind_losesNoRow .root (l.apply q.row) happly q.shape.memo entity path hbind

end Context

/-! ## 3. The invariant -/

/-- The row that a content is bound by has all its rows bound, where its entries are found. -/
theorem Binds.every_row {path : Path} {c : Content Expr NamedRow} {t : Term}
    {entries : List (Path × Expr)} {shape : Shape} (h : Binds path c t entries)
    (hshape : ∀ entry ∈ entries, shape.projection.get? entry.1 = some entry.2) :
    t.every shape.holdsRow = true := by
  induction h with
  | value path e => rfl
  | row path name ref =>
    have hget : shape.projection.get? path = some (.row ref) := hshape _ (List.mem_singleton_self _)
    show (shape.rowAt? path).isSome = true
    simp [Shape.rowAt?, hget]
  | nil path => rfl
  | cons _ _ ihhead ihtail =>
    have hhead := ihhead fun entry hentry => hshape entry (List.mem_append_left _ hentry)
    have htail := ihtail fun entry hentry => hshape entry (List.mem_append_right _ hentry)
    simp only [Term.every, Bool.and_eq_true] at htail
    simp only [Term.every, Term.everyMember, Bool.and_eq_true]
    exact ⟨rfl, hhead, htail.2⟩

/-- An orderly query in whose row every whole row is bound. -/
structure Query.Anchored (model : Model) (root : Entity) (q : Query) : Prop where
  orderly : q.Orderly model root
  rows : q.row.every q.shape.holdsRow = true

namespace Query.Anchored

variable {model : Model} {root : Entity} {q : Query}

theorem start {entity : String} (h : model.find? entity = some root) :
    (Query.of root).Anchored model root :=
  ⟨.start h, rfl⟩

theorem filtered (h : q.Anchored model root) (e : Expr) {memo : Memo} (hm : memo.Faithful root) :
    (q.filtered e memo).Anchored model root where
  orderly := by
    refine ⟨h.orderly.grounded.filtered e hm, ?_⟩
    rw [content_filtered]
    exact h.orderly.distinct
  rows := by
    rw [filtered_row, Shape.holdsRow_congr (q.filtered_source e memo) (q.filtered_projection e memo)]
    exact h.rows

theorem projected (h : q.Anchored model root) {l : Lambda} (hl : l.WellFormed) {b : Bound Term}
    (hb : model.context.projected? l q = some b) {memo : Memo} (hm : memo.Faithful root) :
    (q.projected b memo).Anchored model root where
  orderly := h.orderly.projected hl hb hm
  rows := by
    have hd := Lambda.distinct_content (model.context.reading q.shape) hl.distinct h.orderly.distinct
    have hbinds := Content.binds_of_bound _ hb
    exact hbinds.every_row fun entry hentry => hbinds.get?_of_mem hd hentry

/-- **One operator keeps the invariant**, if a projection is by a well-formed lambda. -/
theorem apply (h : q.Anchored model root) {op : Operator}
    (hop : ∀ l, op = .project l → l.WellFormed) :
    (model.context.apply op q).2.Anchored model root := by
  rcases Context.apply_cases h.orderly.grounded op with
    ⟨_, heq⟩ | ⟨l, e, memo, _, _, hm, heq⟩ | ⟨l, b, memo, hl, hb, hm, heq⟩
  · rw [heq]
    exact h
  · rw [heq]
    exact h.filtered e hm
  · rw [heq]
    exact h.projected (hop l hl) hb hm

/-- **Operators in turn keep the invariant.** -/
theorem attemptAll (h : q.Anchored model root) {ops : List Operator}
    (hops : ∀ l, .project l ∈ ops → l.WellFormed) :
    (model.context.attemptAll ops q).Anchored model root := by
  induction ops generalizing q with
  | nil => exact h
  | cons op rest ih =>
    refine ih (h.apply fun l hl => hops l (hl ▸ List.mem_cons_self)) fun l hl => ?_
    exact hops l (List.mem_cons_of_mem op hl)

/-- The query of a chain with well-formed selectors has every row bound. -/
theorem of_run {chain : Chain} (h : model.context.run chain = .ok q)
    (hchain : ∀ l, .project l ∈ chain → l.WellFormed) : ∃ root, q.Anchored model root := by
  obtain ⟨entity, ops, start, rfl, hstart, happly⟩ := Context.run_cases h
  obtain ⟨root, hroot, rfl⟩ := Model.source_cases hstart
  rw [← Context.attemptAll_of_applyAll happly]
  exact ⟨root, (Anchored.start hroot).attemptAll fun l hl => hchain l (List.mem_cons_of_mem _ hl)⟩

end Query.Anchored

/-! ## 4. Chains -/

namespace Context

/-- Operators that fail do so at one of them, after others that succeed. -/
theorem applyAll_error_cases {ctx : Context} {ops : List Operator} {q q' : Query}
    {failure : Failure} (h : ctx.applyAll ops q = (.error failure, q')) :
    ∃ done op rest after, ops = done ++ op :: rest ∧ ctx.applyAll done q = (.ok (), after) ∧
      (ctx.apply op after).1 = .error failure := by
  induction ops generalizing q with
  | nil => cases h
  | cons op rest ih =>
    rcases hop : ctx.apply op q with ⟨outcome, next⟩
    cases outcome with
    | error failure' =>
      rw [applyAll_cons_error hop] at h
      cases h
      exact ⟨[], op, rest, q, rfl, rfl, congrArg Prod.fst hop⟩
    | ok _ =>
      rw [applyAll_cons_ok hop] at h
      obtain ⟨done, op', rest', after, rfl, hdone, hfails⟩ := ih h
      exact ⟨op :: done, op', rest', after, rfl, by rw [applyAll_cons_ok hop]; exact hdone, hfails⟩

/-- A chain that loses a row does so at one operator, and has a query up to it. -/
theorem run_lostRow_cases {ctx : Context} {chain : Chain} {entity : String} {path : Path}
    (h : ctx.run chain = .error (.lostRow entity path)) :
    ∃ before op after q, chain = before ++ op :: after ∧ ctx.run before = .ok q ∧
      (ctx.apply op q).1 = .error (.lostRow entity path) := by
  rcases ctx.run_outcome chain with ⟨_, hrun⟩ | ⟨source, _, failure, _, hs, hrun⟩ |
    ⟨source, ops, start, failure, _, rfl, hs, happly, hrun⟩ | ⟨_, _, _, _, _, _, _, hrun⟩
  · cases hrun.symm.trans h
  · cases hrun.symm.trans h
    have hget : (ctx.model.get source >>= fun e => _) = Except.error _ := hs
    unfold Model.get at hget
    split at hget
    · cases hget
    · cases hget
  · cases hrun.symm.trans h
    obtain ⟨done, op, rest, q, rfl, hdone, hfails⟩ := applyAll_error_cases happly
    exact ⟨.source source :: done, op, rest, q, rfl, run_of_applyAll hs hdone, hfails⟩
  · cases hrun.symm.trans h

end Context

namespace Model

/-- **A text loses a row only by a label used twice.** If the chain of a text loses a row, it does
    so at a projection: the chain up to it has a query, and the projection fails on that query with
    the row that is lost. A projection before it constructs an object with a label twice; and as
    long as no projection does, every whole row in the row of the query is bound at its path. -/
theorem rows_are_lost_by_repeated_labels (model : Model) {text : String} {chain : Chain}
    (hparse : Chain.parse text = .ok chain) :
    (∀ entity path, model.context.run chain = .error (.lostRow entity path) →
      ∃ before selector after, chain = before ++ .project selector :: after ∧
        (∃ q, model.context.run before = .ok q ∧
          (model.context.apply (.project selector) q).1 = .error (.lostRow entity path)) ∧
        ∃ l, .project l ∈ before ∧ l.body.hasDistinctLabels = false) ∧
    ∀ before q, before <+: chain → model.context.run before = .ok q →
      (∀ l, .project l ∈ before → l.body.hasDistinctLabels = true) →
        q.row.every q.shape.holdsRow = true := by
  have hplain : ∀ l, .project l ∈ chain → l.body.isPlain = true := fun l hl =>
    ((Chain.written_of_parse hparse).selector hl).isPlain
  have hbound : ∀ before q, before <+: chain → model.context.run before = .ok q →
      (∀ l, .project l ∈ before → l.body.hasDistinctLabels = true) →
        q.row.every q.shape.holdsRow = true := by
    intro before q hbefore hrun hdistinct
    obtain ⟨root, hq⟩ := Query.Anchored.of_run hrun fun l hl =>
      ⟨hplain l (hbefore.subset hl), hdistinct l hl⟩
    exact hq.rows
  refine ⟨fun entity path hlost => ?_, hbound⟩
  obtain ⟨before, op, after, q, rfl, hrun, hfails⟩ := Context.run_lostRow_cases hlost
  obtain ⟨selector, rfl, _⟩ := Context.project_of_lostRow hfails
  refine ⟨before, selector, after, rfl, ⟨q, hrun, hfails⟩, ?_⟩
  by_contra hnone
  -- otherwise the rows are all bound, and the projection finds the one it passes on
  have hrows := hbound before q (List.prefix_append _ _) hrun fun l hl => by
    by_contra hrepeated
    exact hnone ⟨l, hl, by simpa using hrepeated⟩
  refine Context.apply_losesNoRow hrows (fun l hl => ?_) entity path hfails
  cases hl
  exact hplain selector (by simp)

/-- A person and the age under one label, then what the label stands for. -/
def labelTwice : String :=
  "Person.Select(p => new \x7b A = p, A = p.Age \x7d).Select(x => x.A)"

theorem labelTwice_lostRow :
    ∃ chain, Chain.parse labelTwice = .ok chain ∧
      people.context.run chain = .error (.lostRow "Person" ⟨["A"]⟩) := by
  have hlost : (match Chain.parse labelTwice with
      | .ok chain =>
        match people.context.run chain with
        | .error (.lostRow entity path) => decide (entity = "Person" ∧ path = ⟨["A"]⟩)
        | _ => false
      | .error _ => false) = true := by
    decide +kernel
  split at hlost
  · rename_i chain hparse
    refine ⟨chain, hparse, ?_⟩
    split at hlost
    · rename_i hrun
      obtain ⟨rfl, rfl⟩ := of_decide_eq_true hlost
      exact hrun
    · cases hlost
  · cases hlost

/-- The row that is lost under a repeated label, the projection that loses it and the projection
    that repeats the label. -/
theorem rows_are_lost_by_repeated_labels_of_twice :
    ∃ chain before selector after q l, Chain.parse labelTwice = .ok chain ∧
      people.context.run chain = .error (.lostRow "Person" ⟨["A"]⟩) ∧
      chain = before ++ .project selector :: after ∧ people.context.run before = .ok q ∧
      (people.context.apply (.project selector) q).1 = .error (.lostRow "Person" ⟨["A"]⟩) ∧
      .project l ∈ before ∧ l.body.hasDistinctLabels = false := by
  obtain ⟨chain, hparse, hlost⟩ := labelTwice_lostRow
  obtain ⟨before, selector, after, hchain, ⟨q, hrun, hfails⟩, l, hl, hrepeated⟩ :=
    (rows_are_lost_by_repeated_labels people hparse).1 _ _ hlost
  exact ⟨chain, before, selector, after, q, l, hparse, hlost, hchain, hrun, hfails, hl, hrepeated⟩

/-- **A repeated label loses a row**: a well-formed model, and a text that can be read, whose chain
    ends in the loss of a row that the query itself has passed on. -/
theorem repeated_label_loses_row :
    people.check = .ok () ∧ ∃ chain, Chain.parse labelTwice = .ok chain ∧
      people.context.run chain = .error (.lostRow "Person" ⟨["A"]⟩) :=
  ⟨by decide, labelTwice_lostRow⟩

end Model

end EntityQuery
