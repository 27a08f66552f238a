import EntityQuery.Proofs.Reading.Lowering
import EntityQuery.Proofs.Reading.Relations

/-!
What a projected row stands for.

A projection binds the values and rows of a content at the paths of the labels that lead to them,
and its row refers to these paths. If no object uses a label twice, the paths are all different,
and the row stands for the content again.

* `Projection.get?_ofList_of_mem` -- entries under different paths are all found;
* `Binds` -- a content at a path, the row and the entries it is bound by, constructor by
  constructor; `Content.binds_of_bound` derives it from the function;
* `Binds.nodup` -- different labels, different paths;
* `Binds.content_row` -- **the bound row stands for the content**;
* `Binds.follow_of_mem` -- an entry is the leaf to which the labels of its path lead.
-/
namespace EntityQuery

/-! ## 1. Projections by their entries -/

namespace Projection

theorem get?_foldl_of_not_mem {path : Path} :
    ∀ {entries : List (Path × Expr)} {start : Projection}, path ∉ entries.map Prod.fst →
      (entries.foldl (fun projection entry => projection.insert entry.1 entry.2) start).get? path =
        start.get? path
  | [], _, _ => rfl
  | (p, e) :: rest, start, h => by
    simp only [List.map_cons, List.mem_cons, not_or] at h
    rw [List.foldl_cons, get?_foldl_of_not_mem h.2]
    exact get?_insert_of_ne h.1 e start

theorem get?_foldl_of_mem {path : Path} {e : Expr} :
    ∀ {entries : List (Path × Expr)} {start : Projection}, (entries.map Prod.fst).Nodup →
      (path, e) ∈ entries →
      (entries.foldl (fun projection entry => projection.insert entry.1 entry.2) start).get? path =
        some e
  | [], _, _, h => absurd h List.not_mem_nil
  | (p, d) :: rest, start, hn, h => by
    simp only [List.map_cons, List.nodup_cons] at hn
    rw [List.foldl_cons]
    rcases List.mem_cons.mp h with hhead | htail
    · cases hhead
      rw [get?_foldl_of_not_mem hn.1]
      exact get?_insert_self path e start
    · exact get?_foldl_of_mem hn.2 htail

/-- Entries under different paths are all found. -/
theorem get?_ofList_of_mem {entries : List (Path × Expr)} (hn : (entries.map Prod.fst).Nodup)
    {path : Path} {e : Expr} (h : (path, e) ∈ entries) :
    (Projection.ofList entries).get? path = some e :=
  get?_foldl_of_mem hn h

theorem mem_of_get?_foldl {path : Path} {e : Expr} :
    ∀ {entries : List (Path × Expr)} {start : Projection},
      (entries.foldl (fun projection entry => projection.insert entry.1 entry.2) start).get? path =
        some e → (path, e) ∈ entries ∨ start.get? path = some e
  | [], _, h => Or.inr h
  | (p, d) :: rest, start, h => by
    rw [List.foldl_cons] at h
    rcases mem_of_get?_foldl h with hmem | hstart
    · exact Or.inl (List.mem_cons_of_mem _ hmem)
    · by_cases hp : path = p
      · subst hp
        rw [get?_insert_self] at hstart
        cases hstart
        exact Or.inl List.mem_cons_self
      · rw [get?_insert_of_ne hp] at hstart
        exact Or.inr hstart

/-- What is found is an entry. -/
theorem mem_of_get?_ofList {entries : List (Path × Expr)} {path : Path} {e : Expr}
    (h : (Projection.ofList entries).get? path = some e) : (path, e) ∈ entries := by
  rcases mem_of_get?_foldl h with hmem | hstart
  · exact hmem
  · cases hstart

end Projection

/-! ## 2. Bound contents, constructor by constructor -/

/-- A content at a path is bound by a row and entries. An object is bound member by member. -/
inductive Binds : Path → Content Expr NamedRow → Term → List (Path × Expr) → Prop where
  | value (path : Path) (e : Expr) : Binds path (.value e) (.binding path) [(path, e)]
  | row (path : Path) (name : String) (ref : RowRef) :
      Binds path (.row ⟨name, some ref⟩) (.entity name path) [(path, .row ref)]
  | nil (path : Path) : Binds path (.object []) (.object []) []
  | cons {path : Path} {label : String} {c : Content Expr NamedRow} {t : Term}
      {entries rest : List (Path × Expr)} {ms : List (String × Content Expr NamedRow)}
      {ts : List (String × Term)} (head : Binds (path.append label) c t entries)
      (tail : Binds path (.object ms) (.object ts) rest) :
      Binds path (.object ((label, c) :: ms)) (.object ((label, t) :: ts)) (entries ++ rest)

namespace Content

mutual
theorem binds_of_bound :
    ∀ (c : Content Expr NamedRow) {path : Path} {b : Bound Term}, c.bound path = some b →
      Binds path c b.row b.entries
  | .nothing, _, _, h => by
    rw [bound] at h
    cases h
  | .value e, path, _, h => by
    rw [bound] at h
    cases h
    exact .value path e
  | .row ⟨name, ref⟩, path, _, h => by
    rw [bound] at h
    obtain ⟨ref, href, rfl⟩ := Option.map_eq_some_iff.mp h
    cases href
    exact .row path name ref
  | .object members, _, _, h => by
    rw [bound] at h
    obtain ⟨b, hb, rfl⟩ := Option.map_eq_some_iff.mp h
    exact binds_of_boundMembers members hb

theorem binds_of_boundMembers :
    ∀ (ms : List (String × Content Expr NamedRow)) {path : Path}
      {b : Bound (List (String × Term))}, boundMembers path ms = some b →
      Binds path (.object ms) (.object b.row) b.entries
  | [], path, _, h => by
    rw [boundMembers] at h
    cases h
    exact .nil path
  | (_, c) :: rest, _, _, h => by
    rw [boundMembers] at h
    obtain ⟨b, hb, h⟩ := Option.bind_eq_some_iff.mp h
    obtain ⟨bs, hbs, h⟩ := Option.bind_eq_some_iff.mp h
    cases h
    exact .cons (binds_of_bound c hb) (binds_of_boundMembers rest hbs)
end

end Content

namespace Binds

variable {path : Path} {c : Content Expr NamedRow} {t : Term} {entries : List (Path × Expr)}

/-- The entries are the values and the rows of the content. -/
theorem entry_cases {P : Expr → Prop} {Q : NamedRow → Prop} {L : List String → Prop}
    (hL : ∀ l ls, L (l :: ls) → L ls) (h : Binds path c t entries) (hc : c.Every P Q L) :
    ∀ entry ∈ entries, P entry.2 ∨ ∃ name ref, entry.2 = .row ref ∧ Q ⟨name, some ref⟩ := by
  induction h with
  | value path e =>
    intro entry hentry
    rw [List.mem_singleton.mp hentry]
    exact Or.inl (hc.of_value? rfl)
  | row path name ref =>
    intro entry hentry
    rw [List.mem_singleton.mp hentry]
    cases hc with
    | row hq => exact Or.inr ⟨name, ref, rfl, hq⟩
  | nil path => exact fun entry hentry => absurd hentry List.not_mem_nil
  | cons _ _ ihc ihms =>
    intro entry hentry
    rcases List.mem_append.mp hentry with hentry | hentry
    · exact ihc hc.head entry hentry
    · exact ihms (hc.tail hL) entry hentry

/-! ## 3. Paths -/

/-- Every entry is at the path or below it. -/
theorem prefix_of_mem (h : Binds path c t entries) :
    ∀ entry ∈ entries, path.labels <+: entry.1.labels := by
  induction h with
  | value path e =>
    intro entry hentry
    obtain rfl := List.mem_singleton.mp hentry
    exact List.prefix_refl _
  | row path name ref =>
    intro entry hentry
    obtain rfl := List.mem_singleton.mp hentry
    exact List.prefix_refl _
  | nil path => exact fun entry hentry => absurd hentry List.not_mem_nil
  | cons _ _ ihc ihms =>
    intro entry hentry
    rcases List.mem_append.mp hentry with hentry | hentry
    · exact (List.prefix_append _ _).trans (ihc entry hentry)
    · exact ihms entry hentry

/-- Every entry of an object is below the path of one of its labels. -/
theorem label_of_mem {ms : List (String × Content Expr NamedRow)}
    (h : Binds path (.object ms) t entries) :
    ∀ entry ∈ entries, ∃ label ∈ ms.map Prod.fst,
      (path.append label).labels <+: entry.1.labels := by
  generalize hc : Content.object ms = c at h
  induction h generalizing ms with
  | value _ _ => cases hc
  | row _ _ _ => cases hc
  | nil path => exact fun entry hentry => absurd hentry List.not_mem_nil
  | cons head _ _ ihms =>
    cases hc
    intro entry hentry
    rcases List.mem_append.mp hentry with hentry | hentry
    · exact ⟨_, List.mem_cons_self, head.prefix_of_mem entry hentry⟩
    · obtain ⟨label, hlabel, hprefix⟩ := ihms rfl entry hentry
      exact ⟨label, List.mem_cons_of_mem _ hlabel, hprefix⟩

/-- The paths of two labels have nothing below them in common. -/
theorem label_eq_of_prefix {path : Path} {l l' : String} {labels : List String}
    (h : (path.append l).labels <+: labels) (h' : (path.append l').labels <+: labels) : l = l' := by
  obtain ⟨_, h⟩ := h
  obtain ⟨_, h'⟩ := h'
  rw [← h'] at h
  simp only [Path.append, List.append_assoc, List.append_cancel_left_eq, List.cons_append,
    List.nil_append, List.cons.injEq] at h
  exact h.1

/-- **Different labels, different paths.** -/
theorem nodup (h : Binds path c t entries) (hc : c.Distinct) : (entries.map Prod.fst).Nodup := by
  induction h with
  | value path e => simp
  | row path name ref => simp
  | nil path => simp
  | cons head tail ihc ihms =>
    rw [List.map_append]
    refine List.nodup_append.mpr ⟨ihc hc.head, ihms hc.tail, ?_⟩
    intro p hp q hq heq
    subst heq
    obtain ⟨entry, hentry, rfl⟩ := List.mem_map.mp hp
    obtain ⟨entry', hentry', heq⟩ := List.mem_map.mp hq
    obtain ⟨label, hlabel, hprefix⟩ := tail.label_of_mem entry' hentry'
    rw [heq] at hprefix
    -- one path below two labels: the label of the head is one of the others
    have hsame := label_eq_of_prefix (head.prefix_of_mem entry hentry) hprefix
    exact hc.not_mem (hsame ▸ hlabel)

/-! ## 4. The row -/

/-- The entries as a projection: each is found under its path. -/
theorem get?_of_mem (h : Binds path c t entries) (hc : c.Distinct) {entry : Path × Expr}
    (hentry : entry ∈ entries) : (Projection.ofList entries).get? entry.1 = some entry.2 :=
  Projection.get?_ofList_of_mem (h.nodup hc) hentry

/-- **The bound row stands for the content** in a shape where the entries are found, if no value
    is mistaken for a row. -/
theorem content_row {ctx : Context} {shape : Shape} {scope : Scope Expr NamedRow}
    {Q : NamedRow → Prop} {L : List String → Prop} (hL : ∀ l ls, L (l :: ls) → L ls)
    (h : Binds path c t entries) (hc : c.Every (fun e => e.isRow = false) Q L)
    (hshape : ∀ entry ∈ entries, shape.projection.get? entry.1 = some entry.2) :
    t.content (ctx.reading shape) scope = c := by
  induction h with
  | value path e =>
    have hget : shape.projection.get? path = some e := hshape _ (List.mem_singleton_self _)
    have hrow : e.isRow = false := hc.of_value? rfl
    have hbound : (ctx.reading shape).bound path = some e := by
      show (shape.valueAt path).toOption = some e
      simp [Shape.valueAt, hget, hrow, Except.toOption]
    rw [Term.content, hbound]
    rfl
  | row path name ref =>
    have hget : shape.projection.get? path = some (.row ref) := hshape _ (List.mem_singleton_self _)
    have hat : shape.rowAt? path = some ref := by simp [Shape.rowAt?, hget]
    rw [Term.content]
    show Content.row (⟨name, shape.rowAt? path⟩ : NamedRow) = _
    rw [hat]
  | nil path =>
    rw [Term.content, Term.memberContents]
  | cons _ _ ihc ihms =>
    have hhead := ihc hc.head fun entry hentry =>
      hshape entry (List.mem_append_left _ hentry)
    have htail := ihms (hc.tail hL) fun entry hentry =>
      hshape entry (List.mem_append_right _ hentry)
    rw [Term.content, Content.object.injEq] at htail
    rw [Term.content, Term.memberContents, hhead, htail]

/-- An entry is the leaf to which the labels of its path lead. -/
theorem follow_of_mem (h : Binds path c t entries) (hc : c.Distinct) :
    ∀ entry ∈ entries, ∃ labels, entry.1.labels = path.labels ++ labels ∧
      (c.follow labels = .value entry.2 ∨
        ∃ name ref, entry.2 = .row ref ∧ c.follow labels = .row ⟨name, some ref⟩) := by
  induction h with
  | value path e =>
    intro entry hentry
    rw [List.mem_singleton.mp hentry]
    exact ⟨[], by simp, Or.inl rfl⟩
  | row path name ref =>
    intro entry hentry
    rw [List.mem_singleton.mp hentry]
    exact ⟨[], by simp, Or.inr ⟨name, ref, rfl, rfl⟩⟩
  | nil path => exact fun entry hentry => absurd hentry List.not_mem_nil
  | @cons path label c t entries rest ms ts head tail ihc ihms =>
    intro entry hentry
    rcases List.mem_append.mp hentry with hentry | hentry
    · obtain ⟨labels, hlabels, hleaf⟩ := ihc hc.head entry hentry
      refine ⟨label :: labels, by simpa [Path.append] using hlabels, ?_⟩
      simpa [Content.follow, Content.named?] using hleaf
    · obtain ⟨labels, hlabels, hleaf⟩ := ihms hc.tail entry hentry
      refine ⟨labels, hlabels, ?_⟩
      cases labels with
      | nil => rcases hleaf with hleaf | ⟨_, _, _, hleaf⟩ <;> cases hleaf
      | cons l ls =>
        obtain ⟨label', hlabel', hprefix⟩ := tail.label_of_mem entry hentry
        have hl : (path.append l).labels <+: entry.1.labels := by
          rw [hlabels]
          exact ⟨ls, by simp [Path.append]⟩
        have hne : label ≠ l := fun heq =>
          hc.not_mem (heq ▸ label_eq_of_prefix hl hprefix ▸ hlabel')
        simpa [Content.follow, Content.named?, hne] using hleaf

end Binds

end EntityQuery
