import EntityQuery.Proofs.Reading.Basic
import Mathlib.Data.List.Forall2

/-!
Properties and relations of contents that reading keeps.

* `Content.Every` -- every value, every row and the labels of every object have a property;
* `Content.Follows` -- where one content says something, another says what corresponds to it, and
  with the same labels;
* `Term.every_content` -- if the operations of a reading keep the properties, all it reads has them;
* `Term.follows_content` -- **if the operations of one reading follow those of another, so does all
  they read**;
* `Content.Full` -- a content says something everywhere.
-/
namespace EntityQuery

universe u w

/-! ## 1. Properties of contents -/

namespace Content

variable {α : Type u} {ρ : Type} {P : α → Prop} {Q : ρ → Prop} {L : List String → Prop}

/-- The values, the rows and the lists of labels in a content have properties. -/
inductive Every (P : α → Prop) (Q : ρ → Prop) (L : List String → Prop) : Content α ρ → Prop where
  | nothing : Every P Q L .nothing
  | value {a : α} (h : P a) : Every P Q L (.value a)
  | row {r : ρ} (h : Q r) : Every P Q L (.row r)
  | object {members : List (String × Content α ρ)} (hlabels : L (members.map Prod.fst))
      (hmembers : ∀ m ∈ members, Every P Q L m.2) : Every P Q L (.object members)

theorem Every.head {label : String} {c : Content α ρ} {ms : List (String × Content α ρ)}
    (h : Every P Q L (.object ((label, c) :: ms))) : c.Every P Q L := by
  cases h with
  | object _ hmembers => exact hmembers (label, c) List.mem_cons_self

theorem Every.tail (hL : ∀ l ls, L (l :: ls) → L ls) {label : String} {c : Content α ρ}
    {ms : List (String × Content α ρ)} (h : Every P Q L (.object ((label, c) :: ms))) :
    Every P Q L (.object ms) := by
  cases h with
  | object hlabels hmembers =>
    exact .object (hL _ _ hlabels) fun m hm => hmembers m (List.mem_cons_of_mem _ hm)

theorem Every.imp {P' : α → Prop} (h : ∀ a, P a → P' a) {c : Content α ρ}
    (hc : c.Every P Q L) : c.Every P' Q L := by
  induction hc with
  | nothing => exact .nothing
  | value hp => exact .value (h _ hp)
  | row hr => exact .row hr
  | object hlabels _ ih => exact .object hlabels ih

/-- No object in the content has a label twice. -/
def Distinct (c : Content α ρ) : Prop := c.Every (fun _ => True) (fun _ => True) List.Nodup

theorem Distinct.head {label : String} {c : Content α ρ} {ms : List (String × Content α ρ)}
    (h : Distinct (.object ((label, c) :: ms))) : c.Distinct := Every.head h

theorem Distinct.tail {label : String} {c : Content α ρ} {ms : List (String × Content α ρ)}
    (h : Distinct (.object ((label, c) :: ms))) : Distinct (.object ms) :=
  Every.tail (fun _ _ hn => (List.nodup_cons.mp hn).2) h

theorem Distinct.not_mem {label : String} {c : Content α ρ} {ms : List (String × Content α ρ)}
    (h : Distinct (.object ((label, c) :: ms))) : label ∉ ms.map Prod.fst := by
  cases h with
  | object hlabels _ => exact (List.nodup_cons.mp hlabels).1

theorem mem_of_named? {label : String} {c : Content α ρ} :
    ∀ {members : List (String × Content α ρ)}, named? label members = some c →
      (label, c) ∈ members
  | [], h => by cases h
  | (l, d) :: rest, h => by
    unfold named? at h
    split at h
    · rename_i hl
      cases h
      rw [hl]
      exact List.mem_cons_self
    · exact List.mem_cons_of_mem _ (mem_of_named? h)

theorem Every.ofOption {o : Option α} (h : ∀ a, o = some a → P a) :
    (Content.ofOption o : Content α ρ).Every P Q L := by
  cases o with
  | none => exact .nothing
  | some a => exact .value (h a rfl)

theorem Every.of_value? {c : Content α ρ} (hc : c.Every P Q L) {a : α} (h : c.value? = some a) :
    P a := by
  cases hc with
  | value hp =>
    cases h
    exact hp
  | _ => cases h

theorem Every.select {c : Content α ρ} (hc : c.Every P Q L) {field : ρ → String → Option α}
    (hfield : ∀ r label a, Q r → field r label = some a → P a) (label : String) :
    (c.select field label).Every P Q L := by
  cases hc with
  | nothing => exact .nothing
  | value _ => exact .nothing
  | row hr => exact .ofOption fun a ha => hfield _ label a hr ha
  | @object members _ hmembers =>
    rw [Content.select]
    cases hn : named? label members with
    | none => exact .nothing
    | some d => exact hmembers _ (mem_of_named? hn)

end Content

/-- The operations of a reading keep a property of values and a property of rows. -/
structure Reading.Keeps {α : Type u} {ρ : Type} (P : α → Prop) (Q : ρ → Prop) (R : Reading α ρ) :
    Prop where
  literal : ∀ value, P (R.literal value)
  null : ∀ type, P (R.null type)
  field : ∀ r label a, Q r → R.field r label = some a → P a
  unary : ∀ op a b, P a → R.unary op a = some b → P b
  binary : ∀ op a b c, P a → P b → R.binary op a b = some c → P c
  call : ∀ a method as b, P a → (∀ x ∈ as, P x) → R.call a method as = some b → P b
  row : ∀ name path, Q (R.row name path)
  bound : ∀ path a, R.bound path = some a → P a

namespace Term

section Every

variable {α : Type u} {ρ : Type} {P : α → Prop} {Q : ρ → Prop} {L : List String → Prop}
  {R : Reading α ρ} {scope : Scope α ρ}

theorem valuesOf_keeps :
    ∀ {ts : List Term}, (∀ t ∈ ts, (t.content R scope).Every P Q L) →
      ∀ {as : List α}, valuesOf R scope ts = some as → ∀ a ∈ as, P a
  | [], _, as, h => by
    cases h
    exact fun a ha => absurd ha List.not_mem_nil
  | t :: ts, ht, as, h => by
    rw [valuesOf] at h
    obtain ⟨b, hb, h⟩ := Option.bind_eq_some_iff.mp h
    obtain ⟨bs, hbs, rfl⟩ := Option.map_eq_some_iff.mp h
    intro a ha
    rcases List.mem_cons.mp ha with rfl | ha
    · exact (ht t List.mem_cons_self).of_value? hb
    · exact valuesOf_keeps (fun u hu => ht u (List.mem_cons_of_mem t hu)) hbs a ha

/-- **What the operations of a reading keep holds of all it reads**, with whatever holds of the
    labels of the object constructions in the term. -/
theorem every_content (hR : R.Keeps P Q) (hscope : ∀ name, (scope name).Every P Q L)
    {test : Term → Bool} (hL : ∀ members, test (.object members) = true → L (members.map Prod.fst))
    {t : Term} (ht : t.every test = true) : (t.content R scope).Every P Q L := by
  induction t with
  | constant value type =>
    cases value with
    | none => exact .value (hR.null type)
    | some value => exact .value (hR.literal value)
  | parameter name => exact hscope name
  | member target label ih =>
    simp only [every, Bool.and_eq_true] at ht
    exact (ih ht.2).select hR.field label
  | unary op operand ih =>
    simp only [every, Bool.and_eq_true] at ht
    refine .ofOption fun b hb => ?_
    obtain ⟨a, ha, hb⟩ := Option.bind_eq_some_iff.mp hb
    exact hR.unary op a b ((ih ht.2).of_value? ha) hb
  | binary op left right ihl ihr =>
    simp only [every, Bool.and_eq_true] at ht
    refine .ofOption fun c hc => ?_
    obtain ⟨a, ha, hc⟩ := Option.bind_eq_some_iff.mp hc
    obtain ⟨b, hb, hc⟩ := Option.bind_eq_some_iff.mp hc
    exact hR.binary op a b c ((ihl ht.1.2).of_value? ha) ((ihr ht.2).of_value? hb) hc
  | call receiver method arguments ihr iha =>
    simp only [every, Bool.and_eq_true, everyIn_iff] at ht
    refine .ofOption fun b hb => ?_
    obtain ⟨a, ha, hb⟩ := Option.bind_eq_some_iff.mp hb
    obtain ⟨as, has, hb⟩ := Option.bind_eq_some_iff.mp hb
    have hargs := valuesOf_keeps (fun t h => iha t h (ht.2 t h)) has
    exact hR.call a method as b ((ihr ht.1.2).of_value? ha) hargs hb
  | ownerCall _ _ _ => exact .nothing
  | object members ih =>
    simp only [every, Bool.and_eq_true, everyMember_iff] at ht
    rw [content, memberContents_eq_map]
    refine .object ?_ fun m hm => ?_
    · rw [List.map_map]
      exact hL members ht.1
    · obtain ⟨n, hn, rfl⟩ := List.mem_map.mp hm
      exact ih n hn (ht.2 n hn)
  | conditional _ _ _ _ _ _ => exact .nothing
  | lambda _ _ _ => exact .nothing
  | entity name path => exact .row (hR.row name path)
  | binding path => exact .ofOption fun a ha => hR.bound path a ha

/-- The same of a lambda, if it holds of what the lambda is applied to. -/
theorem every_content_lambda (hR : R.Keeps P Q) {c : Content α ρ} (hc : c.Every P Q L)
    {test : Term → Bool} (hL : ∀ members, test (.object members) = true → L (members.map Prod.fst))
    {l : Lambda} (hl : l.body.every test = true) : (l.content R c).Every P Q L := by
  refine every_content hR (fun name => ?_) hL hl
  unfold Scope.set
  split
  · exact hc
  · exact .nothing

end Every

end Term

/-! ## 2. Contents that follow one another -/

namespace Content

variable {α : Type u} {β : Type w} {ρ σ : Type} {V : α → β → Prop} {W : ρ → σ → Prop}

/-- Where the first content says something, the second says what corresponds to it. -/
inductive Follows (V : α → β → Prop) (W : ρ → σ → Prop) : Content α ρ → Content β σ → Prop where
  | nothing (d : Content β σ) : Follows V W .nothing d
  | value {a : α} {b : β} (h : V a b) : Follows V W (.value a) (.value b)
  | row {r : ρ} {s : σ} (h : W r s) : Follows V W (.row r) (.row s)
  | object {ms : List (String × Content α ρ)} {ns : List (String × Content β σ)}
      (hlabels : ms.map Prod.fst = ns.map Prod.fst)
      (hmembers : ∀ p ∈ ms.zip ns, Follows V W p.1.2 p.2.2) : Follows V W (.object ms) (.object ns)

theorem Follows.ofOption {o : Option α} {o' : Option β}
    (h : ∀ a, o = some a → ∃ b, o' = some b ∧ V a b) :
    Follows V W (.ofOption o) (.ofOption o') := by
  cases o with
  | none => exact .nothing _
  | some a =>
    obtain ⟨b, rfl, hab⟩ := h a rfl
    exact .value hab

theorem Follows.of_value? {c : Content α ρ} {d : Content β σ} (h : Follows V W c d) {a : α}
    (ha : c.value? = some a) : ∃ b, d.value? = some b ∧ V a b := by
  cases h with
  | value hab =>
    cases ha
    exact ⟨_, rfl, hab⟩
  | _ => cases ha

/-- The first members with one label follow one another. -/
theorem follows_named? (label : String) :
    ∀ {ms : List (String × Content α ρ)} {ns : List (String × Content β σ)},
      ms.map Prod.fst = ns.map Prod.fst → (∀ p ∈ ms.zip ns, Follows V W p.1.2 p.2.2) →
      Follows V W ((named? label ms).getD .nothing) ((named? label ns).getD .nothing)
  | [], _, _, _ => .nothing _
  | _ :: _, [], hlabels, _ => by cases hlabels
  | (l, c) :: ms, (l', d) :: ns, hlabels, hmembers => by
    simp only [List.map_cons, List.cons.injEq] at hlabels
    obtain ⟨rfl, hlabels⟩ := hlabels
    simp only [List.zip_cons_cons, List.mem_cons, forall_eq_or_imp] at hmembers
    by_cases h : l = label
    · simp only [named?, h, if_true]
      exact hmembers.1
    · simp only [named?, h, if_false]
      exact follows_named? label hlabels hmembers.2

theorem Follows.select {c : Content α ρ} {d : Content β σ} (h : Follows V W c d)
    {field : ρ → String → Option α} {field' : σ → String → Option β}
    (hfield : ∀ r s label a, W r s → field r label = some a → ∃ b, field' s label = some b ∧ V a b)
    (label : String) : Follows V W (c.select field label) (d.select field' label) := by
  cases h with
  | nothing d => exact .nothing _
  | value _ => exact .nothing _
  | row hrs => exact .ofOption fun a ha => hfield _ _ label a hrs ha
  | object hlabels hmembers => exact follows_named? label hlabels hmembers

/-- What follows an object is an object, member by member. -/
theorem Follows.cons_inv {label : String} {c : Content α ρ} {ms : List (String × Content α ρ)}
    {d : Content β σ} (h : Follows V W (.object ((label, c) :: ms)) d) :
    ∃ c' ms', d = .object ((label, c') :: ms') ∧ Follows V W c c' ∧
      Follows V W (.object ms) (.object ms') := by
  cases h with
  | @object _ ns hlabels hmembers =>
    cases ns with
    | nil => cases hlabels
    | cons n ns =>
      obtain ⟨l, c'⟩ := n
      simp only [List.map_cons, List.cons.injEq] at hlabels
      simp only [List.zip_cons_cons, List.mem_cons, forall_eq_or_imp] at hmembers
      obtain ⟨rfl, hlabels⟩ := hlabels
      exact ⟨c', ns, rfl, hmembers.1, .object hlabels hmembers.2⟩

/-- What labels lead to in one content follows what they lead to in the other. -/
theorem Follows.follow {c : Content α ρ} {d : Content β σ} (h : Follows V W c d)
    (labels : List String) : Follows V W (c.follow labels) (d.follow labels) := by
  induction labels generalizing c d with
  | nil => exact h
  | cons l ls ih =>
    cases h with
    | nothing d => exact .nothing _
    | value _ => exact .nothing _
    | row _ => exact .nothing _
    | object hlabels hmembers => exact ih (follows_named? l hlabels hmembers)

end Content

/-- The operations of one reading follow those of another. -/
structure Reading.Follows {α : Type u} {β : Type w} {ρ σ : Type} (V : α → β → Prop)
    (W : ρ → σ → Prop) (R : Reading α ρ) (S : Reading β σ) : Prop where
  literal : ∀ value, V (R.literal value) (S.literal value)
  null : ∀ type, V (R.null type) (S.null type)
  field : ∀ r s label a, W r s → R.field r label = some a → ∃ b, S.field s label = some b ∧ V a b
  unary : ∀ op a b a', V a b → R.unary op a = some a' → ∃ b', S.unary op b = some b' ∧ V a' b'
  binary : ∀ op a₁ b₁ a₂ b₂ a', V a₁ b₁ → V a₂ b₂ → R.binary op a₁ a₂ = some a' →
    ∃ b', S.binary op b₁ b₂ = some b' ∧ V a' b'
  call : ∀ a b method as bs a', V a b → List.Forall₂ V as bs → R.call a method as = some a' →
    ∃ b', S.call b method bs = some b' ∧ V a' b'
  row : ∀ name path, W (R.row name path) (S.row name path)
  bound : ∀ path a, R.bound path = some a → ∃ b, S.bound path = some b ∧ V a b

namespace Term

section Follows

variable {α : Type u} {β : Type w} {ρ σ : Type} {V : α → β → Prop} {W : ρ → σ → Prop}
  {R : Reading α ρ} {S : Reading β σ} {scope : Scope α ρ} {scope' : Scope β σ}

theorem valuesOf_follows :
    ∀ {ts : List Term}, (∀ t ∈ ts, Content.Follows V W (t.content R scope) (t.content S scope')) →
      ∀ {as : List α}, valuesOf R scope ts = some as →
        ∃ bs, valuesOf S scope' ts = some bs ∧ List.Forall₂ V as bs
  | [], _, as, h => by
    cases h
    exact ⟨[], rfl, .nil⟩
  | t :: ts, ht, as, h => by
    rw [valuesOf] at h
    obtain ⟨a, ha, h⟩ := Option.bind_eq_some_iff.mp h
    obtain ⟨as, has, rfl⟩ := Option.map_eq_some_iff.mp h
    obtain ⟨b, hb, hab⟩ := (ht t List.mem_cons_self).of_value? ha
    obtain ⟨bs, hbs, habs⟩ := valuesOf_follows (fun u hu => ht u (List.mem_cons_of_mem t hu)) has
    exact ⟨b :: bs, by simp [valuesOf, hb, hbs], .cons hab habs⟩

/-- **If the operations of one reading follow those of another, so does all they read.** -/
theorem follows_content (h : R.Follows V W S)
    (hscope : ∀ name, Content.Follows V W (scope name) (scope' name)) (t : Term) :
    Content.Follows V W (t.content R scope) (t.content S scope') := by
  induction t with
  | constant value type =>
    cases value with
    | none => exact .value (h.null type)
    | some value => exact .value (h.literal value)
  | parameter name => exact hscope name
  | member target label ih => exact ih.select h.field label
  | unary op operand ih =>
    refine .ofOption fun a' ha' => ?_
    obtain ⟨a, ha, ha'⟩ := Option.bind_eq_some_iff.mp ha'
    obtain ⟨b, hb, hab⟩ := ih.of_value? ha
    rw [hb]
    exact h.unary op a b a' hab ha'
  | binary op left right ihl ihr =>
    refine .ofOption fun a' ha' => ?_
    obtain ⟨a₁, ha₁, ha'⟩ := Option.bind_eq_some_iff.mp ha'
    obtain ⟨a₂, ha₂, ha'⟩ := Option.bind_eq_some_iff.mp ha'
    obtain ⟨b₁, hb₁, hab₁⟩ := ihl.of_value? ha₁
    obtain ⟨b₂, hb₂, hab₂⟩ := ihr.of_value? ha₂
    rw [hb₁, hb₂]
    exact h.binary op a₁ b₁ a₂ b₂ a' hab₁ hab₂ ha'
  | call receiver method arguments ihr iha =>
    refine .ofOption fun a' ha' => ?_
    obtain ⟨a, ha, ha'⟩ := Option.bind_eq_some_iff.mp ha'
    obtain ⟨as, has, ha'⟩ := Option.bind_eq_some_iff.mp ha'
    obtain ⟨b, hb, hab⟩ := ihr.of_value? ha
    obtain ⟨bs, hbs, habs⟩ := valuesOf_follows iha has
    rw [hb, hbs]
    exact h.call a b method as bs a' hab habs ha'
  | ownerCall _ _ _ => exact .nothing _
  | object members ih =>
    rw [content, content, memberContents_eq_map, memberContents_eq_map]
    refine .object ?_ fun p hp => ?_
    · rw [List.map_map, List.map_map]
      rfl
    · rw [List.zip_map'] at hp
      obtain ⟨m, hm, rfl⟩ := List.mem_map.mp hp
      exact ih m hm
  | conditional _ _ _ _ _ _ => exact .nothing _
  | lambda _ _ _ => exact .nothing _
  | entity name path => exact .row (h.row name path)
  | binding path => exact .ofOption (h.bound path)

end Follows

end Term

/-! ## 3. Contents without gaps -/

namespace Content

variable {α : Type u} {ρ : Type}

/-- A content that says something everywhere. -/
inductive Full : Content α ρ → Prop where
  | value (a : α) : Full (.value a)
  | row (r : ρ) : Full (.row r)
  | object {members : List (String × Content α ρ)} (h : ∀ m ∈ members, Full m.2) :
      Full (.object members)

theorem Full.cons {label : String} {c : Content α ρ} {ms : List (String × Content α ρ)}
    (hc : c.Full) (hms : Full (.object ms)) : Full (.object ((label, c) :: ms)) := by
  cases hms with
  | object h =>
    refine .object fun m hm => ?_
    rcases List.mem_cons.mp hm with rfl | hm
    · exact hc
    · exact h m hm

end Content

end EntityQuery
