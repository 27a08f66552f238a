import EntityQuery.Proofs.Layout
import EntityQuery.Proofs.Parsed
import Mathlib.Data.List.Nodup

/-!
The texts of the paths of a projection.

A path is written as its labels with points between them, so that `A.B` is the text both of one
label with a point in it and of two labels. The labels of a query that was read are names, and no
name has a point or a bracket in it: from the text of such a path the labels come back.

* `Path.isNamed` -- all labels of a path are names;
* `Path.splitOn_text`, `Path.eq_of_text_eq` -- **such a path is known by its text**, the row itself
  included;
* `Reader.yields_named_chain` -- in what is read, the labels of all projected objects are names;
* `Binds.isNamed` -- so are then those of the paths at which values are bound;
* `Model.paths_of_parsed` -- **a projection has paths of names, each once**;
* `Document.field?` -- the field of a record with a name;
* `Model.texts_of_paths_are_distinct` -- **in the document of a query every projected expression is
  found under the text of its path**.
-/
namespace EntityQuery

/-! ## 1. Paths of names -/

namespace Path

/-- All labels are names. -/
def isNamed (p : Path) : Bool := p.labels.all isName

theorem isNamed_iff {p : Path} : p.isNamed = true ↔ ∀ label ∈ p.labels, isName label = true :=
  List.all_eq_true

theorem isNamed_append {p : Path} {label : String} (hp : p.isNamed = true)
    (hlabel : isName label = true) : (p.append label).isNamed = true := by
  rw [isNamed_iff] at hp ⊢
  intro l hl
  rcases List.mem_append.mp hl with hl | hl
  · exact hp l hl
  · exact List.mem_singleton.mp hl ▸ hlabel

end Path

/-- A character that is no part of a name is in no name. -/
theorem not_mem_of_isName {n : String} (h : isName n = true) {c : Char}
    (hc : isNamePart c = false) : c ∉ n.toList := by
  obtain ⟨d, ds, hn, hd, hds⟩ := isName_cons h
  rw [hn]
  intro hmem
  rcases List.mem_cons.mp hmem with rfl | hmem
  · rw [isNamePart_of_isNameStart hd] at hc
    cases hc
  · rw [hds c hmem] at hc
    cases hc

namespace Path

/-- Between the points of the text stand the labels. -/
theorem splitOn_text {p : Path} (hp : p.isNamed = true) (hne : p.labels ≠ []) :
    p.text.toList.splitOn '.' = p.labels.map String.toList := by
  have hroot : p.isRoot = false := by
    rw [isRoot, List.isEmpty_eq_false_iff]
    exact hne
  have htext : p.text.toList = ['.'].intercalate (p.labels.map String.toList) := by
    rw [text, hroot, if_neg Bool.false_ne_true, String.toList_intercalate]
    rfl
  rw [htext]
  refine List.splitOn_intercalate '.' ?_ (by simpa using hne)
  exact List.forall_mem_map.mpr fun label hlabel =>
    not_mem_of_isName (isNamed_iff.mp hp label hlabel) (by decide)

/-- A path with a label is not written as the row itself. -/
theorem text_ne_root {p : Path} (hp : p.isNamed = true) (hne : p.labels ≠ []) :
    p.text ≠ "<root>" := by
  intro htext
  have hsplit := splitOn_text hp hne
  rw [htext] at hsplit
  -- the text has no point in it, so it would be the one label
  have hone : p.labels.map String.toList = [("<root>" : String).toList] := by
    rw [← hsplit]
    decide
  obtain ⟨label, hlabels, heq⟩ : ∃ label, p.labels = [label] ∧ label.toList = "<root>".toList := by
    simpa [List.map_eq_cons_iff] using hone
  have hname := isNamed_iff.mp hp label (by simp [hlabels])
  rw [String.toList_inj.mp heq] at hname
  exact absurd hname (by decide)

/-- **Paths of names are known by their texts.** -/
theorem eq_of_text_eq {p q : Path} (hp : p.isNamed = true) (hq : q.isNamed = true)
    (h : p.text = q.text) : p = q := by
  have hroot : ∀ {r : Path}, r.labels = [] → r.text = "<root>" := by
    intro r hr
    simp [text, isRoot, hr]
  have hlabels : p.labels = q.labels := by
    by_cases hpe : p.labels = []
    · by_cases hqe : q.labels = []
      · rw [hpe, hqe]
      · exact absurd (h.symm.trans (hroot hpe)) (text_ne_root hq hqe)
    · by_cases hqe : q.labels = []
      · exact absurd (h.trans (hroot hqe)) (text_ne_root hp hpe)
      · have hmap : p.labels.map String.toList = q.labels.map String.toList := by
          rw [← splitOn_text hp hpe, h, splitOn_text hq hqe]
        exact List.map_injective_iff.mpr (fun _ _ => String.toList_injective) hmap
  cases p
  cases q
  exact congrArg mk hlabels

/-- With a point in a label, two paths may have one text. -/
example : (⟨["A.B"]⟩ : Path).text = (⟨["A", "B"]⟩ : Path).text := by
  decide

end Path

/-! ## 2. Labels that are read -/

/-- The labels of a projection are names; any other operator. -/
def Operator.Named : Operator → Prop
  | .project l => l.body.every Term.isNamed = true
  | _ => True

/-- Calls on types change no label. -/
theorem Term.isNamed_withOwners (param : String) {t : Term} (h : t.isNamed = true) :
    (t.withOwners param).isNamed = true := by
  cases t with
  | object members =>
    rw [withOwners, withOwnersIn_eq_map, isNamed, List.all_map]
    exact h
  | call receiver method arguments =>
    cases receiver with
    | parameter name =>
      rw [withOwners]
      split <;> rfl
    | _ => rfl
  | _ => exact h

namespace Reader

theorem yields_named_lambda : Yields (fun l => l.body.every Term.isNamed = true) lambda := by
  refine .after fun param => .after fun _ => yields_named_term.cut.bind fun body h => .pure ?_
  have hnode : ∀ t, Term.isNamed t = true → Term.isNamed (t.withOwners param) = true :=
    fun _ => Term.isNamed_withOwners param
  exact Term.every_withOwners hnode h

/-- Only a projection has labels of its own, and these are read with its lambda. -/
theorem argumentRules_named (chain : Reader Chain) :
    ArgumentRules (fun r _ => Yields Operator.Named r) chain chain where
  filter := (Yields.any _).map fun _ _ => trivial
  project := yields_named_lambda.cut.map fun _ h => h
  overRows _ := (Yields.any _).map fun _ _ => trivial
  order _ _ := (Yields.any _).map fun _ _ => trivial
  aggregate _ := (Yields.any _).map fun _ _ => trivial
  pick _ _ := (Yields.any _).map fun _ _ => trivial
  elementAt _ := (Yields.any _).map fun _ _ => trivial
  withTerm _ := (Yields.any _).map fun _ _ => trivial
  defaultIfEmpty := (Yields.any _).map fun _ _ => trivial
  plain _ := .pure trivial
  combine _ := (Yields.any _).map fun _ _ => trivial
  join _ := .cut (.after fun _ => .after fun _ => .after fun _ => .after fun _ => .after fun _ =>
    .after fun _ => .after fun _ => .pure trivial)

/-- **The labels of all projections in a chain that is read are names.** -/
theorem yields_named_chain : Yields
    (fun chain => ∃ entity ops, chain = .source entity :: ops ∧ ∀ op ∈ ops, op.Named) chain :=
  fun s => yields_chainAt_succ
    (yields_operator (fun _ _ => trivial) (argumentRules_named (chainAt s.length))) s

end Reader

theorem Chain.named_of_parse {text : String} {chain : Chain} (h : Chain.parse text = .ok chain)
    {op : Operator} (hop : op ∈ chain) : op.Named := by
  unfold Chain.parse at h
  split at h
  · rename_i hread
    cases h
    obtain ⟨entity, ops, rfl, hops⟩ := Reader.readAll_ok Reader.yields_named_chain hread
    rcases List.mem_cons.mp hop with rfl | hop
    · trivial
    · exact hops op hop
  · cases h

/-! ## 3. Paths in a projection -/

/-- The paths at which a content with names for labels is bound have names for labels. -/
theorem Binds.isNamed {path : Path} {c : Content Expr NamedRow} {t : Term}
    {entries : List (Path × Expr)} {root : Entity} (h : Binds path c t entries)
    (hc : c.IsRow root fun labels => ∀ l ∈ labels, isName l = true) (hpath : path.isNamed = true) :
    ∀ entry ∈ entries, entry.1.isNamed = true := by
  induction h with
  | value path e => exact fun entry hentry => List.mem_singleton.mp hentry ▸ hpath
  | row path name ref => exact fun entry hentry => List.mem_singleton.mp hentry ▸ hpath
  | nil path => exact fun entry hentry => absurd hentry List.not_mem_nil
  | @cons path label _ _ _ _ _ _ _ _ ihhead ihtail =>
    intro entry hentry
    have hlabel : isName label = true := by
      cases hc with
      | object hlabels _ => exact hlabels label List.mem_cons_self
    rcases List.mem_append.mp hentry with hentry | hentry
    · exact ihhead (Content.Every.head hc) (Path.isNamed_append hpath hlabel) entry hentry
    · have htail := Content.Every.tail (fun _ _ h l hl => h l (List.mem_cons_of_mem _ hl)) hc
      exact ihtail htail hpath entry hentry

namespace Projection

theorem nodup_keys_insert {projection : Projection} (h : (projection.map Prod.fst).Nodup)
    (path : Path) (e : Expr) : ((projection.insert path e).map Prod.fst).Nodup := by
  rw [keys_insert]
  split
  · exact h
  · rename_i hnew
    rw [List.nodup_append]
    refine ⟨h, by simp, fun p hp p' hp' heq => hnew ?_⟩
    rw [← List.mem_singleton.mp hp', ← heq]
    exact hp

/-- Insertions one after another give every path once. -/
theorem nodup_keys_ofList (entries : List (Path × Expr)) :
    ((ofList entries).map Prod.fst).Nodup := by
  induction entries using List.reverseRecOn with
  | nil => exact List.nodup_nil
  | append_singleton entries entry ih =>
    rw [ofList_append_singleton]
    exact nodup_keys_insert ih _ _

end Projection

/-- **The paths of a query that was read have names for labels**, each only once. -/
theorem Model.paths_of_parsed {model : Model} {text : String} {chain : Chain} {q : Query}
    (hparse : Chain.parse text = .ok chain) (hrun : model.context.run chain = .ok q) :
    (q.shape.projection.map Prod.fst).Nodup ∧
      ∀ entry ∈ q.shape.projection, entry.1.isNamed = true := by
  obtain ⟨entity, ops, start, rfl, hstart, happly⟩ := Context.run_cases hrun
  obtain ⟨root, hroot, rfl⟩ := Model.source_cases hstart
  have hwritten := Chain.written_of_parse hparse
  have hplain : ∀ l, .project l ∈ ops → l.body.isPlain = true := fun l hl =>
    (hwritten.selector (List.mem_cons_of_mem _ hl)).isPlain
  have hnamed : ∀ l, .project l ∈ ops → l.body.every Term.isNamed = true := fun l hl =>
    Chain.named_of_parse hparse (List.mem_cons_of_mem _ hl)
  have hobject : ∀ members : List (String × Term), Term.isNamed (.object members) = true →
      ∀ l ∈ members.map Prod.fst, isName l = true := fun _ h =>
    List.forall_mem_map.mpr (List.all_eq_true.mp h)
  obtain ⟨_, hstays, hlaid⟩ := Query.Settled.applyAll
    (fun _ _ h l hl => h l (List.mem_cons_of_mem _ hl)) hobject
    (Query.Settled.start (L := fun labels => ∀ l ∈ labels, isName l = true) hroot) hplain hnamed
    happly
  by_cases hsome : ∃ l, .project l ∈ ops
  · obtain ⟨c, entries, hbinds, hrow, hprojection⟩ := hlaid hsome
    rw [hprojection]
    refine ⟨Projection.nodup_keys_ofList entries, fun entry hentry => ?_⟩
    exact hbinds.isNamed hrow rfl entry (Projection.mem_ofList hentry)
  · have hnothing : q.shape.projection = [] := (hstays fun l hl => hsome ⟨l, hl⟩).2
    rw [hnothing]
    exact ⟨List.nodup_nil, fun _ h => absurd h List.not_mem_nil⟩

/-! ## 4. Documents -/

/-- The field of a record with a name; the first, if there were several. -/
def Document.field? (name : String) : Document → Option Document
  | .record fields => fields.lookup name
  | _ => none

/-- Under distinct names every value is found. -/
theorem Document.field?_record {α : Type} {name : α → String} {value : α → Document}
    {items : List α} (hn : (items.map name).Nodup) {a : α} (ha : a ∈ items) :
    (Document.record (items.map fun x => (name x, value x))).field? (name a) = some (value a) := by
  simp only [field?]
  induction items with
  | nil => exact absurd ha List.not_mem_nil
  | cons b items ih =>
    rw [List.map_cons, List.nodup_cons] at hn
    rw [List.map_cons, List.lookup_cons]
    rcases List.mem_cons.mp ha with rfl | ha
    · simp
    · have hne : name a ≠ name b := fun heq => hn.1 (heq ▸ List.mem_map_of_mem ha)
      rw [beq_eq_false_iff_ne.mpr hne]
      exact ih hn.2 ha

namespace Model

/-- **The texts of the paths are distinct.** Whatever the model and the text of the query, no two of
    the projected expressions have paths with the same text, the row itself under `<root>` included.
    So in the document of the query, where these texts are the names of fields, every projected
    expression is found under the text of its path. -/
theorem texts_of_paths_are_distinct (model : Model) {text : String} {chain : Chain} {q : Query}
    (hparse : Chain.parse text = .ok chain) (hrun : model.context.run chain = .ok q) :
    (q.shape.projection.map fun entry => entry.1.text).Nodup ∧
      ∀ path e, (path, e) ∈ q.shape.projection →
        (q.shape.document.field? "projection_map").bind (Document.field? path.text) =
          some e.document := by
  obtain ⟨hkeys, hnamed⟩ := paths_of_parsed hparse hrun
  have htexts : (q.shape.projection.map fun entry => entry.1.text).Nodup := by
    refine List.Nodup.map_on (fun entry hentry entry' hentry' heq => ?_) (List.Nodup.of_map _ hkeys)
    have hpaths := Path.eq_of_text_eq (hnamed entry hentry) (hnamed entry' hentry') heq
    exact List.inj_on_of_nodup_map hkeys hentry hentry' hpaths
  have hfields : q.shape.document.field? "projection_map" =
      some (.record (q.shape.projection.map fun entry => (entry.1.text, entry.2.document))) := rfl
  refine ⟨htexts, fun path e hentry => ?_⟩
  rw [hfields, Option.bind_some]
  exact Document.field?_record htexts hentry

/-- What a text leads to: the texts of the paths of its projection. -/
def pathTextsOf? (model : Model) (text : String) : Option (List String) :=
  (Chain.parse text).toOption.bind fun chain =>
    (model.context.run chain).toOption.bind fun q =>
      some (q.shape.projection.map fun entry => entry.1.text)

/-- Objects in objects, with the same label at different depths. -/
theorem texts_of_paths_are_distinct_of_nested :
    ∃ chain q,
      Chain.parse
        "Person.Select(p => new \x7b A = new \x7b B = p.Name, A = p \x7d, B = p.Age, AB = p \x7d)" =
          .ok chain ∧
      members.context.run chain = .ok q ∧
      (q.shape.projection.map fun entry => entry.1.text) = ["A.B", "A.A", "B", "AB"] ∧
      (q.shape.projection.map fun entry => entry.1.text).Nodup ∧
      ∀ path e, (path, e) ∈ q.shape.projection →
        (q.shape.document.field? "projection_map").bind (Document.field? path.text) =
          some e.document := by
  have htexts : members.pathTextsOf?
      "Person.Select(p => new \x7b A = new \x7b B = p.Name, A = p \x7d, B = p.Age, AB = p \x7d)" =
        some ["A.B", "A.A", "B", "AB"] := by
    decide +kernel
  obtain ⟨chain, hparse, h⟩ := exists_ok_of_toOption_bind htexts
  obtain ⟨q, hrun, h⟩ := exists_ok_of_toOption_bind h
  obtain ⟨hdistinct, hfound⟩ := texts_of_paths_are_distinct members hparse hrun
  exact ⟨chain, q, hparse, hrun, Option.some_inj.mp h, hdistinct, hfound⟩

end Model

end EntityQuery
