import EntityQuery.Proofs.Reachable
import EntityQuery.Proofs.Rendering
import Mathlib.Data.List.Induction

/-!
The row of a query and its projection stay in step.

A projection builds two things at once: a row, which is a tree of object constructions over whole
rows and values, and the list of what is bound at paths. The next projection replaces both. Two
members with one label are two leaves of the row and one entry of the list, which keeps its place.

* `Term.leaves` -- the leaves of a row with the paths of the labels that lead to them;
* `Projection.keys_ofList` -- insertions keep the order of first occurrence;
* `Binds.map_leaves`, `Binds.leaf_cases` -- a bound row has the paths of its entries, and each leaf
  is of the kind of its entry;
* `Query.LaidOut` -- row and projection are bound for one content;
* `Query.Settled` -- the invariant; `Query.Settled.applyAll` -- operators in turn;
* `Query.InStep`, `Query.Records` -- what this comes to for the row and the projection;
* `Model.rows_and_projections_stay_in_step` -- **so it is after any operators**, failed ones among
  them.
-/
namespace EntityQuery

/-! ## 1. Leaves -/

namespace Term

mutual
/-- The leaves of a term, from left to right, each with the path of the labels that lead to it
    through object constructions. -/
def leaves (path : Path) : Term → List (Path × Term)
  | .object members => leavesIn path members
  | t => [(path, t)]

/-- The leaves of the members of an object in turn. -/
def leavesIn (path : Path) : List (String × Term) → List (Path × Term)
  | [] => []
  | (label, t) :: rest => leaves (path.append label) t ++ leavesIn path rest
end

/-- A node of the row of a query: an object construction, a whole row of the entity or a value. -/
def isOfRow (entity : String) : Term → Bool
  | .object _ => true
  | .entity name _ => name = entity
  | .binding _ => true
  | _ => false

/-- A row is a closed term. -/
theorem free_of_every_isOfRow {entity : String} {t : Term} (h : t.every (isOfRow entity) = true) :
    t.free = [] := by
  induction t with
  | object members ih =>
    simp only [every, Bool.and_eq_true, everyMember_iff] at h
    rw [free, freeMembers_eq_flatMap, List.flatMap_eq_nil_iff]
    exact fun m hm => ih m hm (h.2 m hm)
  | entity name path => rfl
  | binding path => rfl
  | _ => simp [every, isOfRow] at h

end Term

/-! ## 2. The paths of a projection -/

namespace Projection

/-- An insertion leaves the paths as they are, or adds one at the end. -/
theorem keys_insert (path : Path) (e : Expr) (projection : Projection) :
    (projection.insert path e).map Prod.fst =
      if path ∈ projection.map Prod.fst then projection.map Prod.fst
      else projection.map Prod.fst ++ [path] := by
  induction projection with
  | nil => rfl
  | cons entry rest ih =>
    obtain ⟨p, d⟩ := entry
    by_cases hp : p = path
    · simp [insert, hp]
    · rw [insert, if_neg hp, List.map_cons, ih, List.map_cons]
      by_cases hrest : path ∈ rest.map Prod.fst
      · simp [hrest]
      · simp [hrest, Ne.symm hp]

theorem ofList_append_singleton (entries : List (Path × Expr)) (entry : Path × Expr) :
    ofList (entries ++ [entry]) = (ofList entries).insert entry.1 entry.2 := by
  simp [ofList, List.foldl_append]

/-- **Insertions keep the order of first occurrence.** -/
theorem keys_ofList (entries : List (Path × Expr)) :
    (ofList entries).map Prod.fst = (entries.map Prod.fst).eraseDups := by
  induction entries using List.reverseRecOn with
  | nil => rfl
  | append_singleton entries entry ih =>
    rw [ofList_append_singleton, keys_insert, ih, List.map_append, List.eraseDups_append]
    by_cases hold : entry.1 ∈ entries.map Prod.fst
    · rw [if_pos (List.mem_eraseDups.mpr hold)]
      simp [List.cons_removeAll, hold]
    · rw [if_neg fun h => hold (List.mem_eraseDups.mp h)]
      simp [List.cons_removeAll, List.eraseDups_cons, hold]

end Projection

/-! ## 3. Bound rows -/

/-- A row that says it is of the entity, and is the entity's own where it is bound. -/
def NamedRow.Own (root : Entity) (r : NamedRow) : Prop := r.entity = root.name ∧ r.IsOf root

/-- What stands in the row of a query: scalar values and rows of the entity, with a property of the
    labels of its objects. -/
def Content.IsRow (root : Entity) (L : List String → Prop) (c : Content Expr NamedRow) : Prop :=
  c.Every (fun e => e.isScalar = true) (NamedRow.Own root) L

theorem Content.IsRow.distinct {root : Entity} {c : Content Expr NamedRow}
    (h : c.IsRow root List.Nodup) : c.Distinct := by
  induction h with
  | nothing => exact .nothing
  | value _ => exact .value trivial
  | row _ => exact .row trivial
  | object hlabels _ ih => exact .object hlabels ih

/-- A leaf of a row belongs to an entry: a whole row to that of the entity, a value to an expression
    that is no whole row. -/
def Binds.Leaf (root : Entity) (leaf : Path × Term) (entry : Path × Expr) : Prop :=
  leaf.1 = entry.1 ∧
    (leaf.2 = .entity root.name leaf.1 ∧ entry.2 = .row (.of root) ∨
      leaf.2 = .binding leaf.1 ∧ entry.2.isRow = false)

namespace Binds

variable {path : Path} {c : Content Expr NamedRow} {t : Term} {entries : List (Path × Expr)}
  {root : Entity} {L : List String → Prop}

/-- The leaves of a bound row have the paths of the entries, in the same order. -/
theorem map_leaves (h : Binds path c t entries) :
    (t.leaves path).map Prod.fst = entries.map Prod.fst := by
  induction h with
  | value path e => rfl
  | row path name ref => rfl
  | nil path => rfl
  | cons _ _ ihhead ihtail =>
    rw [Term.leaves] at ihtail
    rw [Term.leaves, Term.leavesIn, List.map_append, List.map_append, ihhead, ihtail]

/-- Each leaf of a bound row is of the kind of its entry. -/
theorem leaf_cases (hL : ∀ l ls, L (l :: ls) → L ls) (h : Binds path c t entries)
    (hc : c.IsRow root L) : ∀ leaf ∈ t.leaves path, ∃ entry ∈ entries, Leaf root leaf entry := by
  induction h with
  | value path e =>
    intro leaf hleaf
    rw [List.mem_singleton.mp hleaf]
    have hscalar : e.isScalar = true := Content.Every.of_value? hc rfl
    exact ⟨_, List.mem_singleton_self _, rfl, Or.inr ⟨rfl, Expr.isRow_of_isScalar hscalar⟩⟩
  | row path name ref =>
    intro leaf hleaf
    rw [List.mem_singleton.mp hleaf]
    cases hc with
    | row hown =>
      obtain ⟨hname, hof⟩ := hown
      have hname' : name = root.name := hname
      subst hname'
      rw [hof ref rfl]
      exact ⟨_, List.mem_singleton_self _, rfl, Or.inl ⟨rfl, rfl⟩⟩
  | nil path => exact fun leaf hleaf => absurd hleaf List.not_mem_nil
  | cons _ _ ihhead ihtail =>
    intro leaf hleaf
    rw [Term.leaves, Term.leavesIn] at hleaf
    rcases List.mem_append.mp hleaf with hleaf | hleaf
    · obtain ⟨entry, hentry, hkind⟩ := ihhead (Content.Every.head hc) leaf hleaf
      exact ⟨entry, List.mem_append_left _ hentry, hkind⟩
    · rw [Term.leaves] at ihtail
      obtain ⟨entry, hentry, hkind⟩ := ihtail (Content.Every.tail hL hc) leaf hleaf
      exact ⟨entry, List.mem_append_right _ hentry, hkind⟩

/-- A bound row has no nodes but those of a row. -/
theorem every_isOfRow (hL : ∀ l ls, L (l :: ls) → L ls) (h : Binds path c t entries)
    (hc : c.IsRow root L) : t.every (Term.isOfRow root.name) = true := by
  induction h with
  | value path e => rfl
  | row path name ref =>
    cases hc with
    | row hown => exact decide_eq_true hown.1
  | nil path => rfl
  | cons _ _ ihhead ihtail =>
    have hhead := ihhead (Content.Every.head hc)
    have htail := ihtail (Content.Every.tail hL hc)
    simp only [Term.every, Bool.and_eq_true] at htail
    simp only [Term.every, Term.everyMember, Bool.and_eq_true]
    exact ⟨rfl, hhead, htail.2⟩

theorem labels_eq {ms : List (String × Content Expr NamedRow)} {ts : List (String × Term)}
    (h : Binds path (.object ms) (.object ts) entries) : ts.map Prod.fst = ms.map Prod.fst := by
  generalize hc : Content.object ms = c at h
  generalize ht : Term.object ts = t at h
  induction h generalizing ms ts with
  | value _ _ => cases hc
  | row _ _ _ => cases hc
  | nil _ =>
    cases hc
    cases ht
    rfl
  | cons _ _ _ ihtail =>
    cases hc
    cases ht
    rw [List.map_cons, List.map_cons, ihtail rfl rfl]

/-- Where scalar values and rows of the entity are bound, a bound row stands for such. -/
theorem isRow_content {R : Reading Expr NamedRow} {scope : Scope Expr NamedRow}
    (hL : ∀ l ls, L (l :: ls) → L ls) (h : Binds path c t entries) (hc : c.IsRow root L)
    (hbound : ∀ path e, R.bound path = some e → e.isScalar = true)
    (hrow : ∀ path, (R.row root.name path).Own root) : (t.content R scope).IsRow root L := by
  induction h with
  | value path e => exact .ofOption (hbound path)
  | row path name ref =>
    cases hc with
    | row hown =>
      have hname : name = root.name := hown.1
      subst hname
      exact .row (hrow path)
  | nil path =>
    cases hc with
    | object hlabels _ => exact .object hlabels fun _ hm => absurd hm List.not_mem_nil
  | @cons path label c t entries rest ms ts _ tail ihhead ihtail =>
    have hhead := ihhead (Content.Every.head hc)
    have htail := ihtail (Content.Every.tail hL hc)
    rw [Term.content, Term.memberContents_eq_map] at htail ⊢
    cases hc with
    | object hlabels _ =>
      cases htail with
      | object _ hmembers =>
        refine .object ?_ fun m hm => ?_
        · rw [List.map_map, List.map_cons]
          show L (label :: ts.map Prod.fst)
          rw [tail.labels_eq]
          exact hlabels
        · rcases List.mem_cons.mp hm with rfl | hm
          · exact hhead
          · exact hmembers m hm

end Binds

/-! ## 4. The invariant -/

/-- Row and projection are bound for one content. -/
def Query.LaidOut (root : Entity) (L : List String → Prop) (q : Query) : Prop :=
  ∃ c entries, Binds .root c q.row entries ∧ c.IsRow root L ∧ q.shape.projection = .ofList entries

/-- A grounded query whose row stands for scalar values and rows of the entity. -/
structure Query.Settled (model : Model) (root : Entity) (L : List String → Prop) (q : Query) :
    Prop where
  grounded : q.Grounded model root
  isRow : (q.content model.context).IsRow root L

namespace Query.Settled

variable {model : Model} {root : Entity} {L : List String → Prop} {q : Query}

theorem start {entity : String} (h : model.find? entity = some root) :
    (Query.of root).Settled model root L where
  grounded := .start h
  isRow := by
    have hgrounded := Query.Grounded.start h
    exact .row ⟨rfl, (Model.keeps_isScalar hgrounded.rooted hgrounded.scalar).row root.name .root⟩

theorem filtered (h : q.Settled model root L) (e : Expr) {memo : Memo} (hm : memo.Faithful root) :
    (q.filtered e memo).Settled model root L where
  grounded := h.grounded.filtered e hm
  isRow := by
    rw [content_filtered]
    exact h.isRow

/-- A plain lambda makes scalar values and rows of the entity of such, since it names no row
    itself. -/
theorem isRow_lambda (h : q.Settled model root L) {l : Lambda} (hplain : l.body.isPlain = true)
    {test : Term → Bool} (hL : ∀ members, test (.object members) = true → L (members.map Prod.fst))
    (htest : l.body.every test = true) :
    (l.content (model.context.reading q.shape) (q.content model.context)).IsRow root L := by
  have hkeeps := Model.keeps_isScalar h.grounded.rooted h.grounded.scalar
  -- the rows at the paths are of no account, so take them to be of the entity
  have hown : ((model.context.reading q.shape).withPlaces
      (fun _ path => (model.context.reading q.shape).row root.name path)
      (model.context.reading q.shape).bound).Keeps (fun e => e.isScalar = true)
        (NamedRow.Own root) :=
    { literal := hkeeps.literal
      null := hkeeps.null
      field := fun r label a hr => hkeeps.field r label a hr.2
      unary := hkeeps.unary
      binary := hkeeps.binary
      call := hkeeps.call
      row := fun _ path => ⟨rfl, hkeeps.row root.name path⟩
      bound := hkeeps.bound }
  unfold Lambda.content
  rw [← Term.content_of_isPlain _ _ (fun _ path => (model.context.reading q.shape).row root.name path)
    (model.context.reading q.shape).bound hplain]
  exact Term.every_content_lambda hown h.isRow hL htest

theorem projected (hLtail : ∀ l ls, L (l :: ls) → L ls) (h : q.Settled model root L) {l : Lambda}
    (hplain : l.body.isPlain = true) {test : Term → Bool}
    (hL : ∀ members, test (.object members) = true → L (members.map Prod.fst))
    (htest : l.body.every test = true) {b : Bound Term}
    (hb : model.context.projected? l q = some b) {memo : Memo} (hm : memo.Faithful root) :
    (q.projected b memo).Settled model root L ∧ (q.projected b memo).LaidOut root L := by
  have hbinds := Content.binds_of_bound _ hb
  have hrow := h.isRow_lambda hplain hL htest
  have hgrounded := h.grounded.projected hb hm
  have hkeeps := Model.keeps_isScalar hgrounded.rooted hgrounded.scalar
  refine ⟨⟨hgrounded, ?_⟩, _, _, hbinds, hrow, rfl⟩
  exact hbinds.isRow_content hLtail hrow hkeeps.bound fun path => ⟨rfl, hkeeps.row root.name path⟩

/-- **Operators that succeed in turn keep the invariant.** Without a projection among them row and
    projection stay what they were; with one they are laid out. -/
theorem applyAll (hLtail : ∀ l ls, L (l :: ls) → L ls) {test : Term → Bool}
    (hL : ∀ members, test (.object members) = true → L (members.map Prod.fst))
    {ops : List Operator} {q' : Query} (h : q.Settled model root L)
    (hplain : ∀ l, .project l ∈ ops → l.body.isPlain = true)
    (htest : ∀ l, .project l ∈ ops → l.body.every test = true)
    (happly : model.context.applyAll ops q = (.ok (), q')) :
    q'.Settled model root L ∧
      ((∀ l, .project l ∉ ops) → q'.row = q.row ∧ q'.shape.projection = q.shape.projection) ∧
      ((∃ l, .project l ∈ ops) → q'.LaidOut root L) := by
  induction ops generalizing q with
  | nil =>
    cases happly
    exact ⟨h, fun _ => ⟨rfl, rfl⟩, fun ⟨_, hl⟩ => absurd hl List.not_mem_nil⟩
  | cons op rest ih =>
    obtain ⟨after, hop, hrest⟩ := Context.applyAll_cons_cases happly
    have hplain' := fun l hl => hplain l (List.mem_cons_of_mem op hl)
    have htest' := fun l hl => htest l (List.mem_cons_of_mem op hl)
    rcases Context.apply_cases h.grounded op with
      ⟨_, heq⟩ | ⟨l, e, memo, rfl, _, hm, heq⟩ | ⟨l, b, memo, rfl, hb, hm, heq⟩
    · cases heq.symm.trans hop
    · cases heq.symm.trans hop
      obtain ⟨hq', hstays, hlaid⟩ := ih (h.filtered e hm) hplain' htest' hrest
      rw [filtered_row, filtered_projection] at hstays
      refine ⟨hq', fun hnone => hstays fun l hl => hnone l (List.mem_cons_of_mem _ hl),
        fun ⟨l', hl'⟩ => ?_⟩
      rcases List.mem_cons.mp hl' with hhead | hl'
      · cases hhead
      · exact hlaid ⟨l', hl'⟩
    · cases heq.symm.trans hop
      obtain ⟨hsettled, hnow⟩ := h.projected hLtail (hplain l List.mem_cons_self) hL
        (htest l List.mem_cons_self) hb hm
      obtain ⟨hq', hstays, hlaid⟩ := ih hsettled hplain' htest' hrest
      refine ⟨hq', fun hnone => absurd List.mem_cons_self (hnone l), fun _ => ?_⟩
      by_cases hlater : ∃ l', .project l' ∈ rest
      · exact hlaid hlater
      · obtain ⟨hrow, hprojection⟩ := hstays fun l' hl' => hlater ⟨l', hl'⟩
        unfold Query.LaidOut
        rw [hrow, hprojection]
        exact hnow

end Query.Settled

/-! ## 5. Row and projection in step -/

/-- The projection of a query is in step with its row: every leaf is bound at the path that leads to
    it, and these paths, in order of first occurrence, are those of the projection. -/
structure Query.InStep (root : Entity) (q : Query) : Prop where
  leaves : ∀ leaf ∈ q.row.leaves .root,
    leaf.2 = .entity root.name leaf.1 ∨ leaf.2 = .binding leaf.1
  keys : q.shape.projection.map Prod.fst = ((q.row.leaves .root).map Prod.fst).eraseDups

/-- At the paths of the leaves stands what they are: the row of the entity for whole rows, and
    anything but a whole row for values. -/
structure Query.Records (root : Entity) (q : Query) : Prop where
  rows : ∀ name path, (path, .entity name path) ∈ q.row.leaves .root →
    q.shape.projection.get? path = some (.row { entity := root.name, source := .of root })
  values : ∀ path, (path, .binding path) ∈ q.row.leaves .root →
    ∃ e, q.shape.projection.get? path = some e ∧ e.isRow = false

namespace Query.LaidOut

variable {root : Entity} {L : List String → Prop} {q : Query}

theorem every_isOfRow (hL : ∀ l ls, L (l :: ls) → L ls) (h : q.LaidOut root L) :
    q.row.every (Term.isOfRow root.name) = true := by
  obtain ⟨c, entries, hbinds, hc, _⟩ := h
  exact hbinds.every_isOfRow hL hc

theorem inStep (hL : ∀ l ls, L (l :: ls) → L ls) (h : q.LaidOut root L) : q.InStep root := by
  obtain ⟨c, entries, hbinds, hc, hprojection⟩ := h
  constructor
  · intro leaf hleaf
    obtain ⟨entry, _, _, hkind⟩ := hbinds.leaf_cases hL hc leaf hleaf
    exact hkind.imp And.left And.left
  · rw [hprojection, Projection.keys_ofList, hbinds.map_leaves]

/-- With a label only once in each object no entry takes the place of another. -/
theorem records (h : q.LaidOut root List.Nodup) : q.Records root := by
  obtain ⟨c, entries, hbinds, hc, hprojection⟩ := h
  have hleaf : ∀ leaf ∈ q.row.leaves .root, ∃ e, q.shape.projection.get? leaf.1 = some e ∧
      (leaf.2 = .entity root.name leaf.1 ∧ e = .row (.of root) ∨
        leaf.2 = .binding leaf.1 ∧ e.isRow = false) := by
    intro leaf hleaf
    obtain ⟨entry, hentry, hpath, hkind⟩ :=
      hbinds.leaf_cases (fun _ _ hn => (List.nodup_cons.mp hn).2) hc leaf hleaf
    refine ⟨entry.2, ?_, hkind⟩
    rw [hprojection, hpath]
    exact hbinds.get?_of_mem hc.distinct hentry
  constructor
  · intro name path hmem
    obtain ⟨e, hget, ⟨_, rfl⟩ | ⟨hkind, _⟩⟩ := hleaf _ hmem
    · exact hget
    · cases hkind
  · intro path hmem
    obtain ⟨e, hget, ⟨hkind, _⟩ | ⟨_, hvalue⟩⟩ := hleaf _ hmem
    · cases hkind
    · exact ⟨e, hget, hvalue⟩

end Query.LaidOut

/-- An operator that succeeds is one of those that are tried. -/
theorem Context.mem_of_mem_succeeding {ctx : Context} {op : Operator} :
    ∀ {ops : List Operator} {q : Query}, op ∈ ctx.succeeding ops q → op ∈ ops
  | [], _, h => h
  | first :: rest, q, h => by
    unfold succeeding at h
    split at h
    · rcases List.mem_cons.mp h with rfl | h
      · exact List.mem_cons_self
      · exact List.mem_cons_of_mem first (mem_of_mem_succeeding h)
    · exact List.mem_cons_of_mem first (mem_of_mem_succeeding h)

namespace Model

/-- **Row and projection stay in step**, whatever operators are tried one after another, as long as
    the projections are by plain lambdas. The row consists of object constructions, whole rows of
    the entity and values, and has no free parameter. If no projection has succeeded, it is the
    whole row of the entity, and nothing is projected. Otherwise every leaf is bound at the path
    that leads to it, and these paths are those of the projection in order of first occurrence; and
    if no projection that succeeded uses a label twice in an object, each leaf is recorded there as
    what it is. -/
theorem rows_and_projections_stay_in_step (model : Model) {entity : String} {start q : Query}
    {ops : List Operator} (hstart : model.context.source entity = .ok start)
    (hplain : ∀ l, .project l ∈ ops → l.body.isPlain = true)
    (hq : model.context.attemptAll ops start = q) :
    ∃ root, model.find? entity = some root ∧
      q.row.every (Term.isOfRow root.name) = true ∧ q.row.free = [] ∧
      ((∀ l, .project l ∉ model.context.succeeding ops start) →
        q.shape.projection = [] ∧ q.row = .entity root.name .root ∧
          q.shape.rowAt? .root = some { entity := root.name, source := .of root }) ∧
      ((∃ l, .project l ∈ model.context.succeeding ops start) →
        q.InStep root ∧
          ((∀ l, .project l ∈ model.context.succeeding ops start →
            l.body.hasDistinctLabels = true) → q.Records root)) := by
  obtain ⟨root, hroot, rfl⟩ := source_cases hstart
  have happly := model.context.applyAll_succeeding ops (.of root)
  rw [hq] at happly
  have hplain' : ∀ l, .project l ∈ model.context.succeeding ops (.of root) →
      l.body.isPlain = true := fun l hl => hplain l (Context.mem_of_mem_succeeding hl)
  -- all labels will do for the paths; for what is recorded there they have to be distinct
  obtain ⟨hsettled, hstays, hlaid⟩ := Query.Settled.applyAll (fun _ _ _ => trivial)
    (fun _ _ => trivial) (Query.Settled.start (L := fun _ => True) hroot) hplain'
    (fun l _ => Term.every_true l.body) happly
  have hrow : q.row.every (Term.isOfRow root.name) = true := by
    by_cases hsome : ∃ l, .project l ∈ model.context.succeeding ops (.of root)
    · exact (hlaid hsome).every_isOfRow fun _ _ _ => trivial
    · rw [(hstays fun l hl => hsome ⟨l, hl⟩).1]
      exact decide_eq_true rfl
  refine ⟨root, hroot, hrow, Term.free_of_every_isOfRow hrow, fun hnone => ?_, fun hsome => ?_⟩
  · obtain ⟨hsame, hprojection⟩ := hstays hnone
    have hnothing : q.shape.projection = [] := hprojection
    refine ⟨hnothing, hsame, ?_⟩
    rw [Shape.rowAt?, hnothing, hsettled.grounded.rooted.source_eq]
    rfl
  · refine ⟨(hlaid hsome).inStep fun _ _ _ => trivial, fun hdistinct => ?_⟩
    obtain ⟨_, _, hlaid'⟩ := Query.Settled.applyAll (fun _ _ hn => (List.nodup_cons.mp hn).2)
      (fun _ h => of_decide_eq_true h) (Query.Settled.start (L := List.Nodup) hroot) hplain'
      hdistinct happly
    exact (hlaid' hsome).records

/-- Two projections, and between them a filter that fails. -/
def nestedRows : List Operator := [.project .withAge, .filter .unknownMember, .project .withName]

/-- The second projection keeps what the first made below a label of its own. -/
theorem rows_and_projections_stay_in_step_of_nested :
    (people.context.succeeding nestedRows (.of .person)).length = 2 ∧
    ∃ q, people.context.attemptAll nestedRows (.of .person) = q ∧
      q.row.text =
        "new \x7b name = [name], all = new \x7b who = [Person @ all.who], age = [all.age] \x7d \x7d" ∧
      (q.row.leaves .root).map Prod.fst = [⟨["name"]⟩, ⟨["all", "who"]⟩, ⟨["all", "age"]⟩] ∧
      q.InStep .person ∧ q.Records .person := by
  have hplain : ∀ l, .project l ∈ nestedRows → l.body.isPlain = true ∧
      l.body.hasDistinctLabels = true := by
    intro l hl
    simp only [nestedRows, List.mem_cons, Operator.project.injEq, reduceCtorEq, List.not_mem_nil,
      false_or, or_false] at hl
    rcases hl with rfl | rfl <;> decide
  obtain ⟨root, hroot, _, _, hnone, hsome⟩ := rows_and_projections_stay_in_step people
    (show people.context.source "Person" = .ok (.of .person) from rfl)
    (fun l hl => (hplain l hl).1) rfl
  cases hroot
  have hprojected : ∃ l, .project l ∈ people.context.succeeding nestedRows (.of .person) := by
    by_contra hnever
    have hempty := (hnone fun l hl => hnever ⟨l, hl⟩).1
    have hlength : (people.context.attemptAll nestedRows (.of .person)).shape.projection.length = 3 := by
      decide +kernel
    rw [hempty] at hlength
    cases hlength
  obtain ⟨hstep, hrecords⟩ := hsome hprojected
  refine ⟨by decide +kernel, _, rfl, by decide +kernel, by decide +kernel, hstep, hrecords ?_⟩
  exact fun l hl => (hplain l (Context.mem_of_mem_succeeding hl)).2

/-- The whole person and the age under one label. -/
def sameLabel : Lambda where
  parameter := "p"
  body := .object [("A", .parameter "p"), ("A", .member (.parameter "p") "Age")]

/-- A label that is used twice is two leaves of the row and one path of the projection. -/
example :
    (people.context.attemptAll [.project sameLabel] (.of .person)).row.text =
      "new \x7b A = [Person @ A], A = [A] \x7d" ∧
    (people.context.attemptAll [.project sameLabel] (.of .person)).shape.projection.map Prod.fst =
      [⟨["A"]⟩] := by
  decide +kernel

end Model

end EntityQuery
