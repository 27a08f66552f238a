import EntityQuery.Proofs.Reachable

/-!
A lambda behind a projection says what it says of the selector itself.

* `Query.Orderly.content_fused` -- on the rows of a projection a plain lambda stands for what it
  stands for on the selected term before the projection;
* `Model.projection_fusion` -- so it has the same expression, and the same rows, or none on both.
-/
namespace EntityQuery

/-- Results that are the same as options succeed with the same values. -/
theorem ok_iff_of_toOption_eq {ε α : Type} {x y : Except ε α} (h : x.toOption = y.toOption)
    (a : α) : x = .ok a ↔ y = .ok a := by
  cases x with
  | error _ =>
    cases y with
    | error _ => simp
    | ok _ => cases h
  | ok _ =>
    cases y with
    | error _ => cases h
    | ok _ =>
      cases h
      exact Iff.rfl

namespace Query

variable {model : Model} {root : Entity} {q : Query}

/-- On the rows of a projection a plain lambda stands for what it stands for on the selected term
    before the projection. -/
theorem Orderly.content_fused (h : q.Orderly model root) {f g : Lambda} {b : Bound Term}
    (hb : model.context.projected? f q = some b) (hf : f.WellFormed)
    (hg : g.body.isPlain = true) (memo : Memo) :
    (g.apply (q.projected b memo).row).content (model.context.reading (q.projected b memo).shape)
        Scope.empty =
      (g.apply (f.apply q.row)).content (model.context.reading q.shape) Scope.empty := by
  have hd := Lambda.distinct_content (model.context.reading q.shape) hf.distinct h.distinct
  have hrow := h.grounded.content_projected hb hd memo
  have hsource : (q.projected b memo).shape.source = q.shape.source := rfl
  calc (g.apply (q.projected b memo).row).content
        (model.context.reading (q.projected b memo).shape) Scope.empty
      = g.content (model.context.reading (q.projected b memo).shape)
          ((q.projected b memo).content model.context) := Lambda.content_apply _ g _
    _ = g.content (model.context.reading q.shape)
          (f.content (model.context.reading q.shape) (q.content model.context)) := by
        rw [hrow, Lambda.content_eq_of_source_eq _ hg hsource]
    _ = (g.apply (f.apply q.row)).content (model.context.reading q.shape) Scope.empty := by
        rw [Lambda.content_apply, Lambda.content_apply]
        rfl

end Query

/-- **A lambda behind a projection is fused with its selector.** Applied to the new row it has an
    expression exactly if it has one applied to the selected term before the projection, and it is
    the same one; and it is bound exactly if the other is, as the same row with the same entries. -/
theorem Model.projection_fusion {model : Model} {q q' : Query} {f g : Lambda}
    (hq : Query.Reachable model.context Lambda.WellFormed q) (hf : f.WellFormed)
    (hg : g.body.isPlain = true) (h : model.context.project f q = (.ok (), q')) :
    (∀ e, (model.context.lower q'.shape (g.apply q'.row) q'.shape.memo).1 = .ok e ↔
      (model.context.lower q.shape (g.apply (f.apply q.row)) q.shape.memo).1 = .ok e) ∧
    ∀ b, (model.context.bind q'.shape .root (g.apply q'.row) q'.shape.memo).1 = .ok b ↔
      (model.context.bind q.shape .root (g.apply (f.apply q.row)) q.shape.memo).1 = .ok b := by
  obtain ⟨root, hq⟩ := hq.orderly
  have happly : model.context.apply (Stage.project f).operator q = (.ok (), q') := h
  rcases Context.stage_cases hq.grounded (.project f) with
    ⟨_, heq⟩ | ⟨_, _, _, heq, _⟩ | ⟨_, b, memo, hl, hb, hm, heq⟩
  · rw [happly] at heq
    cases heq
  · cases heq
  · cases hl
    rw [happly] at heq
    cases heq
    have hq' := hq.grounded.projected hb hm
    have hfused := hq.content_fused hb hf hg memo
    constructor
    · refine ok_iff_of_toOption_eq ?_
      rw [(Context.lower_grounded hq' _).1, (Context.lower_grounded hq.grounded _).1, hfused]
    · refine ok_iff_of_toOption_eq ?_
      rw [(Context.bind_grounded hq' _).1, (Context.bind_grounded hq.grounded _).1, hfused]

/-- What is bound where a person is selected with the age, and then the name and beside it all there
    was: the row, and an entry for each value and each whole row in it. -/
def Bound.nameBesideAll (source : Source) : Bound Term where
  row := .object [("name", .binding ⟨["name"]⟩),
    ("all", .object [("who", .entity "Person" ⟨["all", "who"]⟩),
      ("age", .binding ⟨["all", "age"]⟩)])]
  entries := [
    (⟨["name"]⟩, .attr (.of { name := "Name", type := .string } source)),
    (⟨["all", "who"]⟩, .row { entity := "Person", source := source }),
    (⟨["all", "age"]⟩, .attr (.of { name := "Age", type := .int32, storedAs := some "age" } source))]

/-- A selector that keeps the whole row; behind it a predicate on a member of that row, and another
    selector. -/
theorem Model.projection_fusion_of_adults :
    ∃ q q', Query.Reachable people.context Lambda.WellFormed q ∧
      people.context.project .withAge q = (.ok (), q') ∧
      (∃ e, (people.context.lower q'.shape (Lambda.isAdult.apply q'.row) q'.shape.memo).1 = .ok e ∧
        (people.context.lower q.shape (Lambda.isAdult.apply (Lambda.withAge.apply q.row))
          q.shape.memo).1 = .ok e) ∧
      (people.context.bind q'.shape .root (Lambda.withName.apply q'.row) q'.shape.memo).1 =
        .ok (.nameBesideAll q.shape.source) ∧
      (people.context.bind q.shape .root (Lambda.withName.apply (Lambda.withAge.apply q.row))
        q.shape.memo).1 = .ok (.nameBesideAll q.shape.source) := by
  have hroot : people.find? "Person" = some .person := rfl
  have hstart : Query.Reachable people.context Lambda.WellFormed (.of .person) :=
    .source (source_of_find? hroot)
  have hgrounded : (Query.of .person).Grounded people .person := .start hroot
  obtain ⟨b, hb⟩ := Option.isSome_iff_exists.mp
    (show (people.context.projected? .withAge (.of .person)).isSome = true by decide)
  obtain ⟨memo, _, hproject⟩ := Context.project_of_projected? hgrounded hb
  obtain ⟨e, he⟩ := Option.isSome_iff_exists.mp
    (show ((Lambda.isAdult.apply (Lambda.withAge.apply (Query.of .person).row)).content
      (people.context.reading (Shape.of .person)) Scope.empty).value?.isSome = true by decide)
  have hlower := (ok_iff_of_toOption_eq
    (y := .ok e) ((Context.lower_grounded hgrounded _).1.trans he) e).mpr rfl
  have hpredicate := (projection_fusion hstart (f := .withAge) (g := .isAdult) (by decide)
    (by decide) hproject).1 e
  have hbind : (people.context.bind (Shape.of .person) .root
      (Lambda.withName.apply (Lambda.withAge.apply (Query.of .person).row))
      (Shape.of .person).memo).1 = .ok (.nameBesideAll (Shape.of .person).source) :=
    (ok_iff_of_toOption_eq (y := .ok _) (Context.bind_grounded hgrounded _).1 _).mpr rfl
  have hselector := (projection_fusion hstart (f := .withAge) (g := .withName) (by decide)
    (by decide) hproject).2 (.nameBesideAll (Shape.of .person).source)
  exact ⟨_, _, hstart, hproject, ⟨e, hpredicate.mpr hlower, hlower⟩, hselector.mpr hbind, hbind⟩

end EntityQuery
