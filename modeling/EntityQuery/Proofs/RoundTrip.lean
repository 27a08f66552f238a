import EntityQuery.Proofs.Spelling.Chains

/-!
Chains that are read back from their texts.

A text leaves some things out, and a reader fills them in: the type of a literal, whether a call is
on a name or on a type, and what kind of type a type argument is.

* `Term.isTyped` -- the test that a node has the type that a reader gives it, and no owner that the
  text would show as one more member;
* `Term.isReceived` -- the test that a node is no call on a type. Outside lambdas no parameter tells
  names and types apart, so that every call is on a receiver;
* `ValueType.isSelfNamed` -- the test that a type is the one that its name is read as;
* `Operator.Faithful`, `Chain.Faithful` -- all that a text leaves out is as a reader fills it in;
* `Term.withOwners_spoken`, `Term.spoken_of_isReceived` -- **such terms are read off their texts**;
* `Chain.texts_read_back_iff_faithful` -- **a legible chain is read back from its text exactly if it
  is faithful**.
-/
namespace EntityQuery

/-! ## 1. Types -/

/-- A type that its own name is read as. -/
def ValueType.isSelfNamed : ValueType → Bool
  | .int32 => false
  | .int64 => false
  | .dateTime => false
  | .entity name => (ofKeyword? name).isNone
  | _ => true

/-- No keyword stands for an entity. -/
theorem ValueType.ne_entity_of_ofKeyword? {word : String} {type : ValueType}
    (h : ofKeyword? word = some type) (name : String) : type ≠ .entity name := by
  obtain ⟨before, after, htable, -⟩ := List.lookup_eq_some_iff.mp h
  have hmem : (word, type) ∈ before ++ (word, type) :: after := by simp
  rw [← htable] at hmem
  rintro rfl
  simp at hmem

/-- **The types that are read back are the self-named ones.** -/
theorem ValueType.reread_eq_self_iff (type : ValueType) :
    type.reread = type ↔ type.isSelfNamed = true := by
  cases type with
  | entity name =>
    simp only [reread, text, isSelfNamed]
    cases hword : ofKeyword? name with
    | none => simp
    | some other => simp [ne_entity_of_ofKeyword? hword name]
  | _ => decide

/-! ## 2. Terms -/

namespace Term

/-- A node with the type that a reader gives it. An owner is only for a call without receiver. -/
def isTyped : Term → Bool
  | .constant (some v) type => type = v.type
  | .constant none type => type = .object
  | .call _ method _ => method.owner = none
  | _ => true

/-- No call on a type. -/
def isReceived : Term → Bool
  | .ownerCall _ _ => false
  | _ => true

theorem spoken_constant {value : Option Literal} {type : ValueType}
    (h : (constant value type).isTyped = true) : (constant value type).spoken = .constant value type := by
  cases value with
  | none =>
    have htype : type = .object := of_decide_eq_true h
    rw [htype]
    rfl
  | some v =>
    have htype : type = v.type := of_decide_eq_true h
    rw [htype]
    rfl

theorem spoken_call {receiver : Term} {method : Method} {arguments : List Term}
    (h : (call receiver method arguments).isTyped = true) :
    (call receiver method arguments).spoken = .call receiver.spoken method (arguments.map spoken) := by
  obtain ⟨owner, name⟩ := method
  have howner : owner = none := of_decide_eq_true h
  subst howner
  rw [spoken, spokenAll_eq_map]

/-- **A typed term without calls on types is read off its text.** -/
theorem spoken_of_isReceived {t : Term} (htyped : t.every isTyped = true)
    (hreceived : t.every isReceived = true) : t.spoken = t := by
  induction t with
  | constant value type => exact spoken_constant htyped
  | member target label ih =>
    simp only [every, Bool.and_eq_true] at htyped hreceived
    rw [spoken, ih htyped.2 hreceived.2]
  | unary op operand ih =>
    simp only [every, Bool.and_eq_true] at htyped hreceived
    rw [spoken, ih htyped.2 hreceived.2]
  | binary op left right ihleft ihright =>
    simp only [every, Bool.and_eq_true] at htyped hreceived
    rw [spoken, ihleft htyped.1.2 hreceived.1.2, ihright htyped.2 hreceived.2]
  | call receiver method arguments ihreceiver ihargs =>
    simp only [every, Bool.and_eq_true, everyIn_iff] at htyped hreceived
    rw [spoken_call htyped.1.1, ihreceiver htyped.1.2 hreceived.1.2,
      List.map_eq_self_of_forall fun t ht => ihargs t ht (htyped.2 t ht) (hreceived.2 t ht)]
  | ownerCall method arguments _ =>
    simp only [every, Bool.and_eq_true] at hreceived
    cases hreceived.1
  | object members ih =>
    simp only [every, Bool.and_eq_true, everyMember_iff] at htyped hreceived
    rw [spoken, spokenIn_eq_map, List.map_eq_self_of_forall fun m hm => ?_]
    rw [ih m hm (htyped.2 m hm) (hreceived.2 m hm)]
  | parameter _ | conditional _ _ _ _ _ _ | lambda _ _ _ | entity _ _ | binding _ => rfl

/-- **A typed term whose calls are told apart by a parameter is read off its text under that
    parameter.** -/
theorem withOwners_spoken {param : String} {t : Term} (htyped : t.every isTyped = true)
    (hresolved : t.every (isResolved param) = true) : t.spoken.withOwners param = t := by
  induction t with
  | constant value type =>
    rw [spoken_constant htyped]
    rfl
  | member target label ih =>
    simp only [every, Bool.and_eq_true] at htyped hresolved
    rw [spoken, withOwners, ih htyped.2 hresolved.2]
  | unary op operand ih =>
    simp only [every, Bool.and_eq_true] at htyped hresolved
    rw [spoken, withOwners, ih htyped.2 hresolved.2]
  | binary op left right ihleft ihright =>
    simp only [every, Bool.and_eq_true] at htyped hresolved
    rw [spoken, withOwners, ihleft htyped.1.2 hresolved.1.2, ihright htyped.2 hresolved.2]
  | call receiver method arguments ihreceiver ihargs =>
    simp only [every, Bool.and_eq_true, everyIn_iff] at htyped hresolved
    have hargs : (arguments.map spoken).map (withOwners param) = arguments := by
      rw [List.map_map]
      exact List.map_eq_self_of_forall fun t ht => ihargs t ht (htyped.2 t ht) (hresolved.2 t ht)
    rw [spoken_call htyped.1.1]
    by_cases hname : ∃ name, receiver = .parameter name
    · obtain ⟨name, rfl⟩ := hname
      have hparam : name = param := of_decide_eq_true hresolved.1.1
      have hself : (parameter name).spoken = .parameter name := rfl
      rw [hself, withOwners, withOwnersAll_eq_map, if_pos hparam, hargs]
    · have hbare : ∀ name, receiver ≠ .parameter name := fun name heq => hname ⟨name, heq⟩
      rw [withOwners_call_of_ne (spoken_ne_parameter hbare), hargs,
        ihreceiver htyped.1.2 hresolved.1.2]
  | ownerCall method arguments ihargs =>
    simp only [every, Bool.and_eq_true, everyIn_iff] at htyped hresolved
    have hargs : (arguments.map spoken).map (withOwners param) = arguments := by
      rw [List.map_map]
      exact List.map_eq_self_of_forall fun t ht => ihargs t ht (htyped.2 t ht) (hresolved.2 t ht)
    obtain ⟨owner, name⟩ := method
    cases owner with
    | none => cases hresolved.1
    | some owner =>
      have howner : owner ≠ param := of_decide_eq_true hresolved.1
      rw [spoken, withOwners, spokenAll_eq_map, withOwnersAll_eq_map, if_neg howner, hargs]
  | object members ih =>
    simp only [every, Bool.and_eq_true, everyMember_iff] at htyped hresolved
    rw [spoken, withOwners, spokenIn_eq_map, withOwnersIn_eq_map, List.map_map,
      List.map_eq_self_of_forall fun m hm => ?_]
    simp only [Function.comp_apply, ih m hm (htyped.2 m hm) (hresolved.2 m hm)]
  | conditional _ _ _ _ _ _ => exact withOwners_of_isResolved hresolved
  | parameter _ | lambda _ _ _ | entity _ _ | binding _ => rfl

/-- **A term of the grammar is typed and has no calls on types.** -/
theorem Written.every_isTyped {t : Term} (h : t.Written) :
    t.every isTyped = true ∧ t.every isReceived = true := by
  induction h with
  | literal _ => exact ⟨decide_eq_true rfl, rfl⟩
  | null => exact ⟨rfl, rfl⟩
  | parameter _ => exact ⟨rfl, rfl⟩
  | member _ _ ih => simpa [every, isTyped, isReceived] using ih
  | call _ _ _ ihr iha =>
    simp only [every, Bool.and_eq_true, everyIn_iff]
    exact ⟨⟨⟨rfl, ihr.1⟩, fun t ht => (iha t ht).1⟩, ⟨rfl, ihr.2⟩, fun t ht => (iha t ht).2⟩
  | object _ _ ih =>
    simp only [every, Bool.and_eq_true, everyMember_iff]
    exact ⟨⟨rfl, fun m hm => (ih m hm).1⟩, rfl, fun m hm => (ih m hm).2⟩
  | binary _ _ _ ihl ihr => simp [every, isTyped, isReceived, ihl, ihr]
  | not _ ih | negate _ _ ih | plus _ ih | convert _ _ ih =>
    simpa [every, isTyped, isReceived] using ih

theorem isTyped_withOwners (param : String) {t : Term} (h : t.isTyped = true) :
    (t.withOwners param).isTyped = true := by
  cases t with
  | call receiver method arguments =>
    cases receiver with
    | parameter name =>
      rw [withOwners]
      split
      · exact h
      · rfl
    | _ => exact h
  | constant value type => exact h
  | _ => rfl

end Term

theorem Lambda.reread_eq_self {l : Lambda} (htyped : l.body.every Term.isTyped = true)
    (hresolved : l.body.every (Term.isResolved l.parameter) = true) : l.reread = l := by
  rw [reread, Term.withOwners_spoken htyped hresolved]

theorem Lambda.Written.every_isTyped {l : Lambda} (h : l.Written) :
    l.body.every Term.isTyped = true := by
  obtain ⟨body, hbody, heq⟩ := h
  have htest : ∀ t : Term, t.isTyped = true → (t.withOwners l.parameter).isTyped = true :=
    fun _ => Term.isTyped_withOwners l.parameter
  rw [heq]
  exact Term.every_withOwners htest hbody.every_isTyped.1

/-! ## 3. Operators -/

namespace Operator

/-- All that the texts of its parts leave out is as a reader fills it in. -/
structure Faithful (op : Operator) : Prop where
  lambdas : ∀ l ∈ op.lambdas,
    l.body.every Term.isTyped = true ∧ l.body.every (Term.isResolved l.parameter) = true
  terms : ∀ t ∈ op.terms, t.every Term.isTyped = true ∧ t.every Term.isReceived = true
  types : ∀ type ∈ op.types, type.isSelfNamed = true

instance (op : Operator) : Decidable op.Faithful :=
  decidable_of_iff (_ ∧ _ ∧ _) ⟨fun ⟨hl, ht, htype⟩ => ⟨hl, ht, htype⟩,
    fun h => ⟨h.lambdas, h.terms, h.types⟩⟩

variable {op : Operator}

/-- **An operator that is read as itself**: one whose parts are. -/
theorem reread_eq_self (hlambdas : ∀ l ∈ op.lambdas, l.reread = l)
    (hterms : ∀ t ∈ op.terms, t.spoken = t) (htypes : ∀ type ∈ op.types, type.reread = type)
    (hchains : ∀ c ∈ op.chains, rereadAll c = c) : op.reread = op := by
  cases op with
  | source _ | plain _ => rfl
  | filter l | project l | order _ l _ | overRows _ l =>
    rw [reread, hlambdas l List.mem_cons_self]
  | aggregate _ l | pick _ l _ =>
    cases l with
    | none => rfl
    | some l => rw [reread, Option.map_some, hlambdas l List.mem_cons_self]
  | elementAt t _ | withTerm _ t => rw [reread, hterms t List.mem_cons_self]
  | defaultIfEmpty t =>
    cases t with
    | none => rfl
    | some t => rw [reread, Option.map_some, hterms t List.mem_cons_self]
  | combine kind other => rw [reread, hchains other List.mem_cons_self]
  | join grouped inner outerKey innerKey result =>
    rw [reread, hchains inner List.mem_cons_self, hlambdas outerKey (by simp [lambdas]),
      hlambdas innerKey (by simp [lambdas]), hlambdas result (by simp [lambdas])]
  | typed kind type => rw [reread, htypes type List.mem_cons_self]

/-- The types and chains in an operator that is read as itself are read as themselves. -/
theorem parts_of_reread_eq_self (h : op.reread = op) :
    (∀ type ∈ op.types, type.reread = type) ∧ ∀ c ∈ op.chains, rereadAll c = c := by
  cases op with
  | combine kind other =>
    rw [reread, combine.injEq] at h
    simpa [types, chains] using h.2
  | join grouped inner outerKey innerKey result =>
    rw [reread, join.injEq] at h
    simpa [types, chains] using h.2.1
  | typed kind type =>
    rw [reread, typed.injEq] at h
    simpa [types, chains] using h.2
  | _ => simp [types, chains]

theorem Faithful.reread_eq_self (h : op.Faithful) (hchains : ∀ c ∈ op.chains, rereadAll c = c) :
    op.reread = op :=
  Operator.reread_eq_self
    (fun l hl => Lambda.reread_eq_self (h.lambdas l hl).1 (h.lambdas l hl).2)
    (fun t ht => Term.spoken_of_isReceived (h.terms t ht).1 (h.terms t ht).2)
    (fun type htype => type.reread_eq_self_iff.mpr (h.types type htype)) hchains

/-- **An operator of the grammar is faithful if it is read as itself.** -/
theorem Written.faithful (h : op.Written) (hself : op.reread = op) : op.Faithful where
  lambdas _ hl := ⟨(h.lambda hl).every_isTyped, (h.lambda hl).body.2⟩
  terms _ ht := (h.term ht).every_isTyped
  types type htype :=
    type.reread_eq_self_iff.mp ((parts_of_reread_eq_self hself).1 type htype)

/-- A chain inside an operator is smaller. -/
theorem sizeOf_lt_of_mem_chains {c : Chain} (h : c ∈ op.chains) : sizeOf c < sizeOf op := by
  cases op with
  | combine kind other =>
    obtain rfl := List.mem_singleton.mp h
    simp only [combine.sizeOf_spec]
    omega
  | join grouped inner outerKey innerKey result =>
    obtain rfl := List.mem_singleton.mp h
    simp only [join.sizeOf_spec]
    omega
  | _ => exact absurd h List.not_mem_nil

end Operator

/-! ## 4. Chains -/

namespace Chain

/-- Every operator in a chain, and in the chains inside it, is faithful. -/
def Faithful (chain : Chain) : Prop := ∀ c, chain.Holds c → ∀ op ∈ c, op.Faithful

theorem rereadAll_eq_self_iff {chain : Chain} :
    Operator.rereadAll chain = chain ↔ ∀ op ∈ chain, op.reread = op := by
  rw [Operator.rereadAll_eq_map]
  constructor
  · intro h op hop
    exact List.map_inj_left.mp (h.trans (List.map_id chain).symm) op hop
  · exact List.map_eq_self_of_forall

/-- If a chain is read as itself, so are the chains inside it. -/
theorem Holds.rereadAll_eq_self {chain c : Chain} (hc : chain.Holds c)
    (h : Operator.rereadAll chain = chain) : Operator.rereadAll c = c := by
  induction hc with
  | self => exact h
  | nested _ hop hd ih =>
    exact (Operator.parts_of_reread_eq_self (rereadAll_eq_self_iff.mp ih _ hop)).2 _ hd

/-- **A faithful chain is read as itself**, the chains inside it first. -/
theorem Faithful.rereadAll_eq_self {chain : Chain} (h : chain.Faithful) :
    Operator.rereadAll chain = chain := by
  refine rereadAll_eq_self_iff.mpr fun op hop => (h chain .self op hop).reread_eq_self fun c hc => ?_
  have hinside : c.Faithful := fun d hd => h d (.trans (.nested .self hop hc) hd)
  exact hinside.rereadAll_eq_self
termination_by sizeOf chain
decreasing_by
  have hsmaller := Operator.sizeOf_lt_of_mem_chains hc
  have hmem := List.sizeOf_lt_of_mem hop
  omega

/-- **A chain of the grammar is faithful if it is read as itself.** -/
theorem Written.faithful {chain : Chain} (h : chain.Written)
    (hself : Operator.rereadAll chain = chain) : chain.Faithful := by
  intro c hc op hop
  have hop' : op.reread = op := rereadAll_eq_self_iff.mp (hc.rereadAll_eq_self hself) op hop
  rcases (hc.written h).cases_of_mem hop with ⟨entity, rfl⟩ | hwritten
  · exact ⟨by simp [Operator.lambdas], by simp [Operator.terms], by simp [Operator.types]⟩
  · exact hwritten.faithful hop'

theorem Faithful.of_inside {chain : Chain} (h : ∀ op ∈ chain, op.Faithful)
    (hinside : ∀ op ∈ chain, ∀ d ∈ op.chains, d.Faithful) : chain.Faithful :=
  forall_holds h hinside

/-- **Printing and reading.** The text of a legible chain can always be read, and the chain comes
    back exactly if it is faithful. -/
theorem texts_read_back_iff_faithful {chain : Chain} (h : chain.Legible) :
    Chain.read chain.text = .ok chain ↔ chain.Faithful := by
  constructor
  · intro hread
    have hself : Operator.rereadAll chain = chain := Except.ok.inj ((read_text h).symm.trans hread)
    exact Written.faithful (Reader.readAll_ok Reader.yields_chain hread) hself
  · intro hfaithful
    rw [read_text h, hfaithful.rereadAll_eq_self]

/-- The chain inside `manyParts`. -/
def shipped : Chain :=
  [.source "Order",
    .filter ⟨"o", .binary .notEqual (.member (.parameter "o") "Note") (.null .object)⟩,
    .plain .distinct]

/-- A chain with another one in a join and in a union, a call on the parameter and one on a type,
    signs, a cast, a new object, and texts with quotes. -/
def manyParts : Chain :=
  [.source "Person",
    .filter ⟨"p", .binary .and
      (.unary .not (.call (.parameter "p") ⟨none, "Has"⟩
        [.ofLiteral (.string "a\"b"), .ofLiteral (.char '"')]))
      (.binary .less (.unary .negate (.member (.parameter "p") "Age"))
        (.ownerCall ⟨some "Math", "Abs"⟩
          [.unary (.convert .double) (.ofLiteral (.int32 (-5))), .ofLiteral (.int64 7)]))⟩,
    .join true shipped ⟨"p", .member (.parameter "p") "Id"⟩ ⟨"o", .member (.parameter "o") "Owner"⟩
      ⟨"x", .object [("Who", .parameter "x"), ("Name", .member (.parameter "p") "Name")]⟩,
    .order false ⟨"x", .unary .plus (.parameter "x")⟩ false,
    .combine .union shipped,
    .typed .cast .string,
    .typed .ofType (.entity "Customer"),
    .withTerm .take (.ofLiteral (.int32 10)),
    .defaultIfEmpty none,
    .pick .first none true]

/-- Its text. -/
def manyPartsText : String :=
  "Person.Where(p => (!p.Has(\"a\\\"b\", '\"') && (-p.Age < Math.Abs((double)-5, 7L))))" ++
    ".GroupJoin(Order.Where(o => (o.Note != null)).Distinct(), p => p.Id, o => o.Owner, " ++
    "x => new \x7b Who = x, Name = p.Name \x7d).OrderByDescending(x => +x)" ++
    ".Union(Order.Where(o => (o.Note != null)).Distinct())" ++
    ".Cast<string>().OfType<Customer>().Take(10).DefaultIfEmpty().FirstOrDefault()"

/-- A chain that does not come back: `int32` is no keyword, so that it is read as an entity. -/
def castToInt32 : Chain := [.source "Person", .typed .cast .int32]

theorem texts_read_back_of_manyParts :
    manyParts.Legible ∧ manyParts.Faithful ∧ manyParts.text = manyPartsText ∧
      Chain.read manyPartsText = .ok manyParts ∧
      castToInt32.Legible ∧ Chain.read castToInt32.text ≠ .ok castToInt32 := by
  have hshippedText : shipped.Legible :=
    .of_inside ⟨"Order", _, rfl, by decide, by decide⟩ (by decide) (by simp [shipped, Operator.chains])
  have hshipped : shipped.Faithful :=
    .of_inside (by decide) (by simp [shipped, Operator.chains])
  have hlegible : manyParts.Legible := by
    refine .of_inside ⟨"Person", _, rfl, by decide, by decide⟩ (by decide) ?_
    simp [manyParts, Operator.chains, hshippedText]
  have hfaithful : manyParts.Faithful := by
    refine .of_inside (by decide) ?_
    simp [manyParts, Operator.chains, hshipped]
  have htext : manyParts.text = manyPartsText := by decide +kernel
  have hread := (texts_read_back_iff_faithful hlegible).mpr hfaithful
  rw [htext] at hread
  have hlegible' : castToInt32.Legible :=
    .of_inside ⟨"Person", _, rfl, by decide, by decide⟩ (by decide)
      (by simp [castToInt32, Operator.chains])
  have hcast : ¬ (Operator.typed .cast .int32).Faithful := by decide
  refine ⟨hlegible, hfaithful, htext, hread, hlegible', fun hback => hcast ?_⟩
  exact (texts_read_back_iff_faithful hlegible').mp hback castToInt32 .self _ (by simp [castToInt32])

end Chain

end EntityQuery
