import EntityQuery.Proofs.Lockstep
import Mathlib.Data.List.Find
import Mathlib.Data.List.Nodup
import Mathlib.Data.List.Forall2
import Mathlib.Data.Option.Basic

/-!
The order of declaration has no meaning.

Entities and properties are looked up by name and the first one found is taken. In a well-formed
model no name is declared twice, so the first one is the only one, wherever it stands. A chain asks
a model for nothing but such look-ups.

* `Entity.WellFormed`, `Model.WellFormed` -- what the check of a model accepts, said without an
  order in which it looks (`Model.check_eq_ok_iff`);
* `Entity.Rearranged`, `Model.Rearranged` -- the same declarations in another order;
* `Model.Rearranged.wellFormed` -- they are well formed as well;
* `Model.Rearranged.find?_cases` -- **and they are found by the same names**;
* `Model.declaration_order_is_irrelevant` -- so every chain comes to the same.
-/
namespace EntityQuery

/-! ## 1. Well-formed models -/

/-- A table that has a name, properties of distinct names, and keys that are among them. -/
structure Entity.WellFormed (e : Entity) : Prop where
  table : e.table ≠ some ""
  distinct : (e.properties.map Property.name).Nodup
  partitionKey : ∀ key, e.partitionKey = some key → ∃ p ∈ e.properties, p.name = key
  sortKey : ∀ key, e.sortKey = some key → ∃ p ∈ e.properties, p.name = key

/-- Well-formed entities of distinct names. -/
structure Model.WellFormed (m : Model) : Prop where
  distinct : (m.entities.map Entity.name).Nodup
  entities : ∀ e ∈ m.entities, e.WellFormed

theorem firstRepeated?_eq_none_iff {seen names : List String} :
    firstRepeated? seen names = none ↔ names.Nodup ∧ ∀ n ∈ names, n ∉ seen := by
  induction names generalizing seen with
  | nil => simp [firstRepeated?]
  | cons n rest ih =>
    rw [firstRepeated?]
    by_cases hn : n ∈ seen
    · simp [hn]
    · rw [if_neg hn, ih, List.nodup_cons]
      grind

namespace Entity

theorem keyFault?_eq_none_iff {e : Entity} {role : KeyRole} {key : Option String} :
    e.keyFault? role key = none ↔ ∀ k, key = some k → ∃ p ∈ e.properties, p.name = k := by
  cases key with
  | none => simp [keyFault?]
  | some k => simp [keyFault?, find?]

/-- **What the check of one entity accepts.** -/
theorem fault?_eq_none_iff {e : Entity} : e.fault? = none ↔ e.WellFormed := by
  have hrepeated := @firstRepeated?_eq_none_iff [] (e.properties.map Property.name)
  unfold fault?
  constructor
  · intro h
    split at h
    · cases h
    · rename_i htable
      split at h
      · cases h
      · rename_i hnone
        obtain ⟨hp, hs⟩ := (Option.orElse_eq_none _ _).mp h
        exact ⟨htable, (hrepeated.mp hnone).1, keyFault?_eq_none_iff.mp hp,
          keyFault?_eq_none_iff.mp hs⟩
  · intro h
    rw [if_neg h.table, hrepeated.mpr ⟨h.distinct, fun _ _ => List.not_mem_nil⟩]
    rw [keyFault?_eq_none_iff.mpr h.partitionKey, keyFault?_eq_none_iff.mpr h.sortKey]
    rfl

end Entity

theorem entitiesFault?_eq_none_iff {seen : List String} {es : List Entity} :
    entitiesFault? seen es = none ↔ (es.map Entity.name).Nodup ∧
      (∀ e ∈ es, e.name ∉ seen) ∧ ∀ e ∈ es, e.WellFormed := by
  induction es generalizing seen with
  | nil => simp [entitiesFault?]
  | cons e rest ih =>
    rw [entitiesFault?]
    by_cases he : e.name ∈ seen
    · simp [he]
    · rw [if_neg he, Option.orElse_eq_none, Entity.fault?_eq_none_iff, ih, List.map_cons,
        List.nodup_cons]
      grind

/-- **What the check of a model accepts.** -/
theorem Model.check_eq_ok_iff {m : Model} : m.check = .ok () ↔ m.WellFormed := by
  have hfault := @entitiesFault?_eq_none_iff [] m.entities
  unfold check
  constructor
  · intro h
    split at h
    · cases h
    · rename_i hnone
      obtain ⟨hdistinct, _, hentities⟩ := hfault.mp hnone
      exact ⟨hdistinct, hentities⟩
  · intro h
    rw [hfault.mpr ⟨h.distinct, fun _ _ => List.not_mem_nil, h.entities⟩]

/-! ## 2. Other orders -/

/-- The same entity with its properties in another order. -/
structure Entity.Rearranged (e e' : Entity) : Prop where
  name_eq : e'.name = e.name
  table_eq : e'.table = e.table
  partitionKey_eq : e'.partitionKey = e.partitionKey
  sortKey_eq : e'.sortKey = e.sortKey
  properties_perm : e'.properties.Perm e.properties

/-- The same entities in another order, each with its properties in another order. -/
def Model.Rearranged (m m' : Model) : Prop :=
  ∃ es, es.Perm m.entities ∧ List.Forall₂ Entity.Rearranged es m'.entities

/-- Of elements with distinct names the same one is found in every order. -/
theorem find?_eq_of_perm_of_nodup {α : Type} {name : α → String} {l l' : List α} (h : l'.Perm l)
    (hl : (l.map name).Nodup) (n : String) :
    l'.find? (fun a => name a = n) = l.find? (fun a => name a = n) := by
  refine List.find?_eq_find?_of_perm h ?_
  rintro a ⟨ha, haname⟩ b ⟨hb, hbname⟩
  have hsame : name a = name b := (of_decide_eq_true haname).trans (of_decide_eq_true hbname).symm
  exact List.inj_on_of_nodup_map hl (h.mem_iff.mp ha) (h.mem_iff.mp hb) hsame

namespace Entity.Rearranged

variable {e e' : Entity}

theorem wellFormed (h : e.Rearranged e') (he : e.WellFormed) : e'.WellFormed where
  table := by
    rw [h.table_eq]
    exact he.table
  distinct := (h.properties_perm.map Property.name).nodup_iff.mpr he.distinct
  partitionKey := by
    intro key hkey
    rw [h.partitionKey_eq] at hkey
    obtain ⟨p, hp, hname⟩ := he.partitionKey key hkey
    exact ⟨p, h.properties_perm.mem_iff.mpr hp, hname⟩
  sortKey := by
    intro key hkey
    rw [h.sortKey_eq] at hkey
    obtain ⟨p, hp, hname⟩ := he.sortKey key hkey
    exact ⟨p, h.properties_perm.mem_iff.mpr hp, hname⟩

theorem find?_eq (h : e.Rearranged e') (he : e.WellFormed) (label : String) :
    e'.find? label = e.find? label :=
  find?_eq_of_perm_of_nodup h.properties_perm he.distinct label

/-- A query does not tell in which order the properties of its entity are declared. -/
theorem query_eq (h : e.Rearranged e') : Query.of e' = Query.of e := by
  have hsource : Source.of e' = .of e := by
    rw [Source.of, Source.of, tableName, tableName, h.name_eq, h.table_eq]
  rw [Query.of, Query.of, Shape.of, Shape.of, hsource, h.name_eq]

end Entity.Rearranged

namespace Model

section

variable {es es' : List Entity} (h : List.Forall₂ Entity.Rearranged es es')
include h

theorem names_eq_of_forall₂ : es.map Entity.name = es'.map Entity.name := by
  rw [← List.forall₂_eq_eq_eq, List.forall₂_map_left_iff, List.forall₂_map_right_iff]
  exact h.imp fun _ _ he => he.name_eq.symm

theorem exists_of_mem_of_forall₂ {e' : Entity} (he' : e' ∈ es') : ∃ e ∈ es, e.Rearranged e' := by
  induction h with
  | nil => exact absurd he' List.not_mem_nil
  | @cons e first rest rest' he _ ih =>
    rcases List.mem_cons.mp he' with rfl | he'
    · exact ⟨e, List.mem_cons_self, he⟩
    · obtain ⟨d, hd, hr⟩ := ih he'
      exact ⟨d, List.mem_cons_of_mem _ hd, hr⟩

/-- Look-up in entities of which each is rearranged by itself. -/
theorem find?_cases_of_forall₂ (name : String) :
    (es.find? (fun e => e.name = name) = none ∧ es'.find? (fun e => e.name = name) = none) ∨
      ∃ e e', es.find? (fun e => e.name = name) = some e ∧
        es'.find? (fun e => e.name = name) = some e' ∧ e.Rearranged e' := by
  induction h with
  | nil => exact .inl ⟨rfl, rfl⟩
  | @cons e e' rest rest' he _ ih =>
    by_cases hname : e.name = name
    · have hname' : e'.name = name := he.name_eq.trans hname
      exact .inr ⟨e, e', by simp [hname], by simp [hname'], he⟩
    · have hname' : e'.name ≠ name := fun heq => hname (he.name_eq.symm.trans heq)
      simpa [List.find?_cons, hname, hname'] using ih

end

namespace Rearranged

variable {m m' : Model}

theorem wellFormed (h : m.Rearranged m') (hm : m.WellFormed) : m'.WellFormed := by
  obtain ⟨es, hperm, hall⟩ := h
  refine ⟨?_, fun e' he' => ?_⟩
  · rw [← names_eq_of_forall₂ hall]
    exact (hperm.map Entity.name).nodup_iff.mpr hm.distinct
  · obtain ⟨e, he, hr⟩ := exists_of_mem_of_forall₂ hall he'
    exact hr.wellFormed (hm.entities e (hperm.mem_iff.mp he))

/-- **Both models have the same names**, for the same entities up to the order of their
    properties. -/
theorem find?_cases (h : m.Rearranged m') (hm : m.WellFormed) (name : String) :
    (m.find? name = none ∧ m'.find? name = none) ∨
      ∃ e e', m.find? name = some e ∧ m'.find? name = some e' ∧ e.WellFormed ∧
        e.Rearranged e' := by
  obtain ⟨es, hperm, hall⟩ := h
  -- the entities change places first, and then each is rearranged where it stands
  have hfind : es.find? (fun e => e.name = name) = m.find? name :=
    find?_eq_of_perm_of_nodup hperm hm.distinct name
  rcases find?_cases_of_forall₂ hall name with ⟨hnone, hnone'⟩ | ⟨e, e', he, he', hr⟩
  · exact .inl ⟨hfind.symm.trans hnone, hnone'⟩
  · have hmem := hperm.mem_iff.mp (List.mem_of_find?_eq_some he)
    exact .inr ⟨e, e', hfind.symm.trans he, he', hm.entities e hmem, hr⟩

/-- **A context asks for nothing that depends on the order.** -/
theorem agrees (h : m.Rearranged m') (hm : m.WellFormed) :
    Context.Agrees (fun _ => False) m.context m'.context where
  source entity := by
    show (m'.get entity >>= _) = (m.get entity >>= _)
    rcases h.find?_cases hm entity with ⟨hnone, hnone'⟩ | ⟨e, e', he, he', _, hr⟩
    · rw [Model.get, Model.get, hnone, hnone']
    · rw [Model.get, Model.get, he, he']
      exact congrArg Except.ok hr.query_eq
  rowProperty shape entity path label := by
    unfold Context.rowProperty
    rcases h.find?_cases hm entity with ⟨hnone, hnone'⟩ | ⟨e, e', he, he', hwell, hr⟩
    · simp only [context, hnone, hnone']
    · simp only [context, he, he', hr.find?_eq hwell]
  lowerCall _ _ _ := .inl rfl

end Rearranged

/-! ## 3. Chains -/

/-- **The order of declaration has no meaning.** Entities in another order, with their properties in
    another order, are a well-formed model if they were one before, and every chain comes to the
    same query and to the same statement, or fails in the same way. -/
theorem declaration_order_is_irrelevant {m m' : Model} (h : m.Rearranged m')
    (hm : m.check = .ok ()) :
    m'.check = .ok () ∧ ∀ chain, m'.context.run chain = m.context.run chain ∧
      m'.context.statement chain = m.context.statement chain := by
  have hwell := check_eq_ok_iff.mp hm
  refine ⟨check_eq_ok_iff.mpr (h.wellFormed hwell), fun chain => ?_⟩
  have hrun := (h.agrees hwell).run_eq chain
  refine ⟨hrun, ?_⟩
  rw [Context.statement, Context.statement, hrun]

/-- People, known by their names, and what they order. -/
def shop : Model where
  entities :=
    [{ name := "Person", partitionKey := some "Name"
       properties := [{ name := "Name", type := .string }, { name := "Age", type := .int32 }] },
      { name := "Order", table := some "orders", partitionKey := some "Buyer", sortKey := some "Item"
        properties := [{ name := "Buyer", type := .string }, { name := "Item", type := .string }] }]

/-- The same, with the last declaration first everywhere. -/
def shopBackwards : Model where
  entities := shop.entities.reverse.map fun e => { e with properties := e.properties.reverse }

/-- Adults by age and name. -/
def adultsByName : String :=
  "Person.Where(p => p.Age > 18).Select(p => new \x7b Age = p.Age, Name = p.Name \x7d)"

/-- The columns stand in the order of the query in both models. -/
theorem declaration_order_is_irrelevant_of_shop :
    shop.check = .ok () ∧ shopBackwards.check = .ok () ∧
    (shopBackwards.entities.flatMap fun e => e.properties.map Property.name) =
      ["Item", "Buyer", "Age", "Name"] ∧
    ∃ chain s, Chain.parse adultsByName = .ok chain ∧ shop.context.statement chain = .ok s ∧
      shopBackwards.context.statement chain = .ok s ∧
      s.text = "SELECT \"Age\", \"Name\" FROM \"Person\" WHERE \"Age\" > ?" := by
  have hcheck : shop.check = .ok () := by decide
  have hrearranged : shop.Rearranged shopBackwards := by
    refine ⟨shop.entities.reverse, List.reverse_perm _, ?_⟩
    refine List.forall₂_map_right_iff.mpr (List.forall₂_same.mpr fun e _ => ?_)
    exact ⟨rfl, rfl, rfl, rfl, List.reverse_perm _⟩
  obtain ⟨hcheck', hsame⟩ := declaration_order_is_irrelevant hrearranged hcheck
  have htext : ((Chain.parse adultsByName).toOption.bind fun chain =>
      (shop.context.statement chain).toOption.bind fun s => some s.text) =
      some "SELECT \"Age\", \"Name\" FROM \"Person\" WHERE \"Age\" > ?" := by
    decide +kernel
  obtain ⟨chain, hparse, htext⟩ := exists_ok_of_toOption_bind htext
  obtain ⟨s, hs, htext⟩ := exists_ok_of_toOption_bind htext
  exact ⟨hcheck, hcheck', by decide, chain, s, hparse, hs, (hsame chain).2.trans hs,
    Option.some.inj htext⟩

end Model

end EntityQuery
