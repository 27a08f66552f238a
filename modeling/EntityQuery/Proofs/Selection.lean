import EntityQuery.Proofs.Expressions
import EntityQuery.Proofs.Interpretation
import EntityQuery.Proofs.Tokens
import Mathlib.Data.List.Basic

/-!
What a statement selects is what its projection reads.

Several properties may be stored as one attribute, and a name may hold quotes and commas. Where an
expression reads an attribute is said by a place: the number of the operand on each step down to it.
Places are compared from the first number on, so that what stands further left comes first.

* `Expr.ReadsAt`, `Shape.ReadsAt` -- an attribute is read at a place;
* `Shape.ReadsBefore` -- one attribute is read before another one is read anywhere;
* `Located` -- places and names in order; `Expr.exists_located`, `Shape.exists_located` -- **the
  attributes of expressions and shapes are listed in the order of their places**;
* `Located.firstOccurrences` -- the first occurrences are so too;
* `Selection` -- what a list of selected attributes says; `Selection.read?` reads it off a text;
* `Expr.value`, `Expr.shown` -- the value of an expression on a row, and what it shows of the row;
* `Shape.selection_is_sufficient_and_minimal` -- **a statement selects the attributes that are read,
  and these suffice for all that is projected**.
-/
namespace EntityQuery

/-! ## 1. Places -/

namespace Expr

/-- The operands of an expression from left to right. -/
def operands : Expr → List Expr
  | .unary _ operand _ _ => [operand]
  | .binary _ left right _ _ => [left, right]
  | .call _ arguments _ _ => arguments
  | _ => []

/-- An expression reads an attribute at a place. -/
inductive ReadsAt : Expr → List Nat → String → Prop where
  | here (ref : AttributeRef) : ReadsAt (.attr ref) [] ref.property.storedAs
  | operand {e d : Expr} {i : Nat} {place : List Nat} {name : String}
      (hi : e.operands[i]? = some d) (h : ReadsAt d place name) : ReadsAt e (i :: place) name

/-- An expression reads an attribute, at any depth. -/
def Reads (e : Expr) (name : String) : Prop := ∃ place, e.ReadsAt place name

theorem Reads.of_operand {e d : Expr} {name : String} (hd : d ∈ e.operands) (h : d.Reads name) :
    e.Reads name := by
  obtain ⟨i, hi⟩ := List.mem_iff_getElem?.mp hd
  obtain ⟨place, hplace⟩ := h
  exact ⟨i :: place, .operand hi hplace⟩

/-- **Induction over operands.** -/
theorem induction_operands {motive : Expr → Prop}
    (step : ∀ e : Expr, (∀ d ∈ e.operands, motive d) → motive e) (e : Expr) : motive e := by
  induction e with
  | constant _ _ _ | attr _ | row _ => exact step _ fun _ h => absurd h List.not_mem_nil
  | unary _ _ _ _ ih => exact step _ (by simpa [operands] using ih)
  | binary _ _ _ _ _ ihl ihr => exact step _ (by simpa [operands] using ⟨ihl, ihr⟩)
  | call _ _ _ _ ih => exact step _ ih

/-- All but an attribute itself read what their operands read. -/
theorem attributes_eq_flatMap {e : Expr} (h : ∀ ref, e ≠ .attr ref) :
    e.attributes = e.operands.flatMap attributes := by
  cases e with
  | constant _ _ _ | row _ => rfl
  | unary _ _ _ _ => simp [attributes, operands]
  | binary _ _ _ _ _ => simp [attributes, operands]
  | call _ arguments _ _ => exact attributesIn_eq_flatMap arguments
  | attr ref => exact absurd rfl (h ref)

end Expr

/-- What is read at a place below parts: the first number tells the part. -/
def Under {α : Type} (reads : α → List Nat → String → Prop) (parts : List α) :
    List Nat → String → Prop
  | [], _ => False
  | i :: place, name => ∃ part, parts[i]? = some part ∧ reads part place name

theorem Expr.readsAt_iff {e : Expr} (h : ∀ ref, e ≠ .attr ref) {place : List Nat} {name : String} :
    e.ReadsAt place name ↔ Under ReadsAt e.operands place name := by
  constructor
  · intro hreads
    cases hreads with
    | here ref => exact absurd rfl (h ref)
    | operand hi hd => exact ⟨_, hi, hd⟩
  · intro hunder
    cases place with
    | nil => cases hunder
    | cons i place =>
      obtain ⟨d, hi, hd⟩ := hunder
      exact .operand hi hd

namespace Shape

/-- A projected expression reads an attribute at a place; the first number tells the expression. -/
def ReadsAt (shape : Shape) : List Nat → String → Prop :=
  Under (fun entry => entry.2.ReadsAt) shape.projection

/-- Some projected expression reads the attribute, at any depth. -/
def Reads (shape : Shape) (name : String) : Prop := ∃ place, shape.ReadsAt place name

/-- The first attribute is read somewhere before the second one is read anywhere. -/
def ReadsBefore (shape : Shape) (first second : String) : Prop :=
  ∃ place, shape.ReadsAt place first ∧ ∀ later, shape.ReadsAt later second → place < later

end Shape

/-! ## 2. Places in order -/

/-- All that is read, with its places, in the order of the places. -/
structure Located (reads : List Nat → String → Prop) (readings : List (List Nat × String)) :
    Prop where
  complete : ∀ place name, reads place name ↔ (place, name) ∈ readings
  ordered : readings.Pairwise fun a b => a.1 < b.1

namespace Located

theorem nothing {reads : List Nat → String → Prop} (h : ∀ place name, ¬ reads place name) :
    Located reads [] :=
  ⟨fun place name => by simp [h place name], .nil⟩

theorem single {reads : List Nat → String → Prop} {name : String}
    (h : ∀ place other, reads place other ↔ place = [] ∧ other = name) :
    Located reads [([], name)] :=
  ⟨fun place other => by simp [h], List.pairwise_singleton _ _⟩

/-- The place one part further to the right. -/
def further : List Nat → List Nat
  | [] => []
  | i :: place => (i + 1) :: place

variable {α : Type} {reads : α → List Nat → String → Prop}

/-- One more part at the left. -/
theorem cons {part : α} {rest : List α} {readings readings' : List (List Nat × String)}
    (hpart : Located (reads part) readings) (hrest : Located (Under reads rest) readings') :
    Located (Under reads (part :: rest))
      (readings.map (fun r => (0 :: r.1, r.2)) ++ readings'.map fun r => (further r.1, r.2)) := by
  -- below the parts a place has a first number, so moving it to the right keeps the order
  have hsome : ∀ r ∈ readings', ∃ i place, r.1 = i :: place := by
    intro r hr
    have hunder := (hrest.complete r.1 r.2).mpr hr
    cases hplace : r.1 with
    | nil =>
      rw [hplace] at hunder
      cases hunder
    | cons i place => exact ⟨i, place, rfl⟩
  constructor
  · intro place name
    simp only [List.mem_append, List.mem_map, Prod.mk.injEq, Prod.exists]
    constructor
    · intro hunder
      match place, hunder with
      | 0 :: place, ⟨p, hp, hreads⟩ =>
        obtain rfl : part = p := by simpa using hp
        exact .inl ⟨place, name, (hpart.complete place name).mp hreads, rfl, rfl⟩
      | (i + 1) :: place, ⟨p, hp, hreads⟩ =>
        have hunder' : Under reads rest (i :: place) name := ⟨p, by simpa using hp, hreads⟩
        exact .inr ⟨i :: place, name, (hrest.complete _ _).mp hunder', rfl, rfl⟩
    · rintro (⟨place', name', hmem, rfl, rfl⟩ | ⟨place', name', hmem, rfl, rfl⟩)
      · exact ⟨part, rfl, (hpart.complete _ _).mpr hmem⟩
      · obtain ⟨i, place, hplace⟩ := hsome _ hmem
        obtain rfl : place' = i :: place := hplace
        obtain ⟨p, hp, hreads⟩ := (hrest.complete _ _).mpr hmem
        exact ⟨p, by simpa using hp, hreads⟩
  · refine List.pairwise_append.mpr ⟨?_, ?_, ?_⟩
    · refine hpart.ordered.map _ fun a b hab => ?_
      exact List.cons_lt_cons_iff.mpr (.inr ⟨rfl, hab⟩)
    · refine List.pairwise_map.mpr (hrest.ordered.imp_of_mem fun {a b} ha hb hab => ?_)
      obtain ⟨i, place, hplace⟩ := hsome a ha
      obtain ⟨j, place', hplace'⟩ := hsome b hb
      rw [hplace, hplace', List.cons_lt_cons_iff] at hab
      rw [hplace, hplace', further, further, List.cons_lt_cons_iff]
      rcases hab with hlt | ⟨rfl, hlt⟩
      · exact .inl (Nat.succ_lt_succ hlt)
      · exact .inr ⟨rfl, hlt⟩
    · intro a ha b hb
      obtain ⟨a', -, rfl⟩ := List.mem_map.mp ha
      obtain ⟨b', hb', rfl⟩ := List.mem_map.mp hb
      obtain ⟨i, place, hplace⟩ := hsome b' hb'
      rw [hplace, further]
      exact List.cons_lt_cons_iff.mpr (.inl (Nat.succ_pos i))

/-- **Parts whose readings are listed in order are so together**, with their names in a row. -/
theorem exists_under {names : α → List String} :
    ∀ parts : List α,
      (∀ part ∈ parts, ∃ readings, Located (reads part) readings ∧
        readings.map Prod.snd = names part) →
      ∃ readings, Located (Under reads parts) readings ∧
        readings.map Prod.snd = parts.flatMap names
  | [], _ => by
    refine ⟨[], .nothing fun place name h => ?_, rfl⟩
    match place, h with
    | _ :: _, ⟨_, hpart, _⟩ => cases hpart
  | part :: rest, h => by
    obtain ⟨readings, hpart, hnames⟩ := h part List.mem_cons_self
    obtain ⟨readings', hrest, hnames'⟩ :=
      exists_under rest fun p hp => h p (List.mem_cons_of_mem part hp)
    refine ⟨_, hpart.cons hrest, ?_⟩
    simp only [List.map_append, List.map_map, List.flatMap_cons, ← hnames, ← hnames']
    rfl

variable {reads : List Nat → String → Prop} {readings : List (List Nat × String)}

theorem reads_iff (h : Located reads readings) (name : String) :
    (∃ place, reads place name) ↔ name ∈ readings.map Prod.snd := by
  simp [h.complete]

/-- **First occurrences stand in the order of the first places.** -/
theorem firstOccurrences (h : Located reads readings) :
    (firstOccurrences (readings.map Prod.snd)).Pairwise fun first second =>
      ∃ place, reads place first ∧ ∀ later, reads later second → place < later := by
  simp only [h.complete]
  have hordered := h.ordered
  clear h
  induction readings with
  | nil => exact .nil
  | cons r rest ih =>
    obtain ⟨place, name⟩ := r
    obtain ⟨hfirst, hrest⟩ := List.pairwise_cons.mp hordered
    -- a name other than the first one is read where it is read in the rest
    have hlater : ∀ second, second ≠ name → ∀ later, (later, second) ∈ (place, name) :: rest →
        (later, second) ∈ rest := by
      intro second hne later hmem
      rcases List.mem_cons.mp hmem with heq | hmem
      · exact absurd (congrArg Prod.snd heq) hne
      · exact hmem
    rw [List.map_cons, EntityQuery.firstOccurrences, List.pairwise_cons]
    constructor
    · intro second hsecond
      have hne : second ≠ name := of_decide_eq_true (List.mem_filter.mp hsecond).2
      refine ⟨place, List.mem_cons_self, fun later hmem => ?_⟩
      exact hfirst _ (hlater second hne later hmem)
    · refine ((ih hrest).filter _).imp_of_mem fun {first second} _ hsecond hbefore => ?_
      have hne : second ≠ name := of_decide_eq_true (List.mem_filter.mp hsecond).2
      obtain ⟨place', hmem, hall⟩ := hbefore
      exact ⟨place', List.mem_cons_of_mem _ hmem, fun later hl => hall later (hlater second hne later hl)⟩

end Located

/-- **The attributes of an expression are listed in the order of their places.** -/
theorem Expr.exists_located (e : Expr) :
    ∃ readings, Located e.ReadsAt readings ∧
      readings.map Prod.snd = e.attributes.map fun ref => ref.property.storedAs := by
  induction e using induction_operands with
  | step e ih =>
    by_cases hattr : ∃ ref, e = .attr ref
    · obtain ⟨ref, rfl⟩ := hattr
      refine ⟨[([], ref.property.storedAs)], .single fun place name => ?_, rfl⟩
      constructor
      · intro h
        cases h with
        | here => exact ⟨rfl, rfl⟩
        | operand hi => cases hi
      · rintro ⟨rfl, rfl⟩
        exact .here ref
    · have hne : ∀ ref, e ≠ .attr ref := fun ref heq => hattr ⟨ref, heq⟩
      obtain ⟨readings, hlocated, hnames⟩ := Located.exists_under e.operands ih
      refine ⟨readings, ⟨fun place name => ?_, hlocated.ordered⟩, ?_⟩
      · rw [readsAt_iff hne, hlocated.complete]
      · rw [hnames, attributes_eq_flatMap hne, List.map_flatMap]

/-- **So are those of a shape.** -/
theorem Shape.exists_located (shape : Shape) :
    ∃ readings, Located shape.ReadsAt readings ∧
      readings.map Prod.snd = shape.readAttributes := by
  obtain ⟨readings, hlocated, hnames⟩ :=
    Located.exists_under shape.projection fun entry _ => entry.2.exists_located
  exact ⟨readings, hlocated, by rw [hnames, readAttributes, List.map_flatMap]⟩

/-! ## 3. Reading the list back -/

/-- What a list of selected attributes says. -/
inductive Selection where
  | everything
  | only (names : List String)
  deriving DecidableEq

namespace Selection

/-- The selection has an attribute. -/
def Has : Selection → String → Prop
  | .everything, _ => True
  | .only names, name => name ∈ names

/-- Names with commas between them. -/
def namesOf? : List Token → Option (List String)
  | [.name name] => some [name]
  | .name name :: .comma :: rest => (namesOf? rest).map (name :: ·)
  | _ => none

/-- The selection that tokens say: a star, or names. -/
def ofTokens? : List Token → Option Selection
  | [.star] => some .everything
  | tokens => (namesOf? tokens).map .only

/-- The selection that a text says. In its names the quotes are no longer doubled. -/
def read? (text : String) : Option Selection := (Token.lex text.toList).bind ofTokens?

/-- The text of names: each in quotes, with commas between them. -/
def text (names : List String) : String := ", ".intercalate (names.map quoteName)

/-- The tokens of names with commas between them. -/
theorem lex_text (name : String) (names : List String) :
    ∃ tokens, Token.lex (text (name :: names)).toList = some (.name name :: tokens) ∧
      namesOf? (.name name :: tokens) = some (name :: names) := by
  induction names generalizing name with
  | nil =>
    refine ⟨[], ?_, rfl⟩
    rw [text, List.map_singleton, String.intercalate_singleton]
    exact Token.lex_quoteName name
  | cons second names ih =>
    obtain ⟨tokens, hlex, hnames⟩ := ih second
    refine ⟨.comma :: .name second :: tokens, ?_, ?_⟩
    · have hcomma : Lexer.idle.scan [',', ' '] = some ([.comma], .idle) := rfl
      have hrest := Token.lex_append_of_settled hcomma hlex
      have htext : (text (name :: second :: names)).toList =
          (quoteName name).toList ++ ',' :: (' ' :: (text (second :: names)).toList) := by
        rw [text, List.map_cons, List.map_cons, String.intercalate_cons_cons]
        simp [text]
      rw [htext]
      exact Token.lex_append_of_break (Token.lex_quoteName name) rfl hrest
    · rw [namesOf?, hnames]
      rfl

/-- **Names are read back from their text**, whatever quotes and commas they hold. -/
theorem read?_text {names : List String} (h : names ≠ []) : read? (text names) = some (.only names) := by
  obtain ⟨name, rest, rfl⟩ := List.exists_cons_of_ne_nil h
  obtain ⟨tokens, hlex, hnames⟩ := lex_text name rest
  rw [read?, hlex, Option.bind_some, ofTokens?, hnames]
  · rfl
  · intro hstar
    cases hstar

end Selection

/-! ## 4. Values -/

namespace Expr

universe u

variable {α : Type u} (I : Interpretation α) (functions : String → List α → Option α)

mutual
/-- The value of an expression on a row of attributes, with any meaning of functions. A whole row is
    not a value. -/
def value (row : String → α) : Expr → Option α
  | .constant (some v) _ _ => some (I.literal v)
  | .constant none _ _ => some I.null
  | .unary .not operand _ _ => (value row operand).map I.not
  | .unary .negate operand _ _ => (value row operand).map I.negate
  | .binary op left right _ _ =>
    (value row left).bind fun a => (value row right).map (I.binary op a)
  | .call function arguments _ _ => (values row arguments).bind (functions function)
  | .attr ref => some (row ref.property.storedAs)
  | .row _ => none

/-- The values of expressions in turn. -/
def values (row : String → α) : List Expr → Option (List α)
  | [] => some []
  | e :: rest => (value row e).bind fun a => (values row rest).map (a :: ·)
end

/-- What an expression shows of a row: all of it if it is a whole row, and else its value. -/
def shown (row : String → α) : Expr → (String → α) ⊕ Option α
  | .row _ => .inl row
  | e => .inr (value I functions row e)

theorem values_congr {row row' : String → α} {es : List Expr}
    (h : ∀ e ∈ es, e.value I functions row = e.value I functions row') :
    values I functions row es = values I functions row' es := by
  induction es with
  | nil => rfl
  | cons e es ih =>
    rw [values, values, h e List.mem_cons_self, ih fun d hd => h d (List.mem_cons_of_mem e hd)]

/-- **The value of an expression hangs on the attributes that it reads.** -/
theorem value_congr {row row' : String → α} {e : Expr}
    (h : ∀ name, e.Reads name → row name = row' name) :
    e.value I functions row = e.value I functions row' := by
  induction e using induction_operands with
  | step e ih =>
    have hsame : ∀ d ∈ e.operands, d.value I functions row = d.value I functions row' :=
      fun d hd => ih d hd fun name hreads => h name (.of_operand hd hreads)
    cases e with
    | constant v _ _ => cases v <;> rfl
    | unary op operand _ _ =>
      have hoperand := hsame operand List.mem_cons_self
      cases op <;> rw [value, value, hoperand]
    | binary op left right _ _ =>
      have hleft := hsame left List.mem_cons_self
      have hright := hsame right (List.mem_cons_of_mem _ List.mem_cons_self)
      rw [value, value, hleft, hright]
    | call function arguments _ _ =>
      have harguments : values I functions row arguments = values I functions row' arguments :=
        values_congr I functions hsame
      rw [value, value, harguments]
    | attr ref => exact congrArg some (h _ ⟨[], .here ref⟩)
    | row _ => rfl

end Expr

/-! ## 5. Shapes -/

namespace Shape

universe u

theorem reads_iff {shape : Shape} {name : String} :
    shape.Reads name ↔ ∃ entry ∈ shape.projection, entry.2.Reads name := by
  constructor
  · rintro ⟨place, hplace⟩
    match place, hplace with
    | i :: place, ⟨entry, hentry, hreads⟩ =>
      exact ⟨entry, List.mem_of_getElem? hentry, place, hreads⟩
  · rintro ⟨entry, hentry, place, hreads⟩
    obtain ⟨i, hi⟩ := List.mem_iff_getElem?.mp hentry
    exact ⟨i :: place, entry, hi, hreads⟩

/-- Only values are projected, and some attribute is read by them. -/
def SelectsByName (shape : Shape) : Prop :=
  (∀ entry ∈ shape.projection, entry.2.isRow = false) ∧ ∃ name, shape.Reads name

theorem mem_readAttributes_iff {shape : Shape} {name : String} :
    name ∈ shape.readAttributes ↔ shape.Reads name := by
  obtain ⟨readings, hlocated, hnames⟩ := shape.exists_located
  rw [← hnames]
  exact (hlocated.reads_iff name).symm

/-- The test that a statement makes is whether there are only values and something is read. -/
theorem selectsByName_iff {shape : Shape} :
    shape.SelectsByName ↔
      (shape.projection.any (fun entry => entry.2.isRow) || shape.readAttributes.isEmpty) = false := by
  rw [Bool.or_eq_false_iff, List.any_eq_false, List.isEmpty_eq_false_iff_exists_mem]
  simp only [SelectsByName, mem_readAttributes_iff, Bool.not_eq_true]

theorem selectList_of_selectsByName {shape : Shape} (h : shape.SelectsByName) :
    shape.selectList = Selection.text (firstOccurrences shape.readAttributes) := by
  rw [selectList, selectsByName_iff.mp h]
  rfl

theorem selectList_of_not_selectsByName {shape : Shape} (h : ¬ shape.SelectsByName) :
    shape.selectList = "*" := by
  rw [selectsByName_iff, Bool.not_eq_false] at h
  rw [selectList, if_pos h]

/-- **What a statement selects is sufficient and minimal.** If only values are projected and some
    attribute is read, the text has each attribute that is read once and no other, in the order in
    which they are first read, and their names can be read off it; else it is a star. So rows that
    agree on what is selected cannot be told apart by what is projected, whatever the meaning of
    literals, operators and functions. -/
theorem selection_is_sufficient_and_minimal (shape : Shape) :
    (shape.SelectsByName →
      ∃ names : List String,
        shape.selectList = ", ".intercalate (names.map quoteName) ∧ names.Nodup ∧
        (∀ name, name ∈ names ↔ shape.Reads name) ∧ names.Pairwise shape.ReadsBefore ∧
        Selection.read? shape.selectList = some (.only names)) ∧
    (¬ shape.SelectsByName →
      shape.selectList = "*" ∧ Selection.read? shape.selectList = some .everything) ∧
    ∀ (α : Type u) (I : Interpretation α) (functions : String → List α → Option α)
      (selection : Selection) (row row' : String → α),
      Selection.read? shape.selectList = some selection →
      (∀ name, selection.Has name → row name = row' name) →
      ∀ entry ∈ shape.projection,
        entry.2.shown I functions row = entry.2.shown I functions row' := by
  have hnamed : shape.SelectsByName → Selection.read? shape.selectList =
      some (.only (firstOccurrences shape.readAttributes)) := by
    intro h
    obtain ⟨name, hname⟩ := h.2
    have hmem := mem_firstOccurrences.mpr (mem_readAttributes_iff.mpr hname)
    rw [selectList_of_selectsByName h, Selection.read?_text (List.ne_nil_of_mem hmem)]
  have hstar : ¬ shape.SelectsByName → Selection.read? shape.selectList = some .everything := by
    intro h
    rw [selectList_of_not_selectsByName h]
    rfl
  refine ⟨fun h => ?_, fun h => ⟨selectList_of_not_selectsByName h, hstar h⟩, ?_⟩
  · obtain ⟨readings, hlocated, hnames⟩ := shape.exists_located
    refine ⟨firstOccurrences shape.readAttributes, selectList_of_selectsByName h,
      nodup_firstOccurrences _, fun name => ?_, ?_, hnamed h⟩
    · rw [mem_firstOccurrences, mem_readAttributes_iff]
    · rw [← hnames]
      exact hlocated.firstOccurrences
  · intro α I functions selection row row' hread hagree entry hentry
    by_cases h : shape.SelectsByName
    · obtain rfl : Selection.only _ = selection := Option.some.inj ((hnamed h).symm.trans hread)
      have hvalue := entry.2.value_congr I functions fun name hreads => hagree name <|
        mem_firstOccurrences.mpr (mem_readAttributes_iff.mpr (reads_iff.mpr ⟨entry, hentry, hreads⟩))
      have hrow := h.1 entry hentry
      generalize entry.2 = e at hvalue hrow
      cases e with
      | row _ => cases hrow
      | _ => exact congrArg Sum.inr hvalue
    · obtain rfl : Selection.everything = selection := Option.some.inj ((hstar h).symm.trans hread)
      obtain rfl : row = row' := funext fun name => hagree name trivial
      rfl

/-- The attribute of a property of people. -/
def column (property stored : String) : Expr :=
  .attr (.of { name := property, type := .string, storedAs := some stored }
    { entity := "Person", table := "people" })

/-- Two properties that are stored as one attribute, and names with a quote and with a comma. -/
def sharedColumns : Shape where
  source := { entity := "Person", table := "people" }
  projection :=
    [(Path.root.append "Tagged",
        .call "CONTAINS" [column "Tags" "a, b", column "Name" "na\"me"] .bool none),
      (Path.root.append "Same",
        .binary .equal (column "Name" "na\"me") (column "Alias" "na\"me") .bool none)]

theorem selection_is_sufficient_and_minimal_of_sharedColumns :
    sharedColumns.SelectsByName ∧ sharedColumns.selectList = "\"a, b\", \"na\"\"me\"" ∧
    Selection.read? sharedColumns.selectList = some (.only ["a, b", "na\"me"]) ∧
    sharedColumns.ReadsBefore "a, b" "na\"me" ∧ ¬ sharedColumns.Reads "Alias" ∧
    ∀ row row' : String → Nat, row "a, b" = row' "a, b" → row "na\"me" = row' "na\"me" →
      ∀ (I : Interpretation Nat) (functions : String → List Nat → Option Nat),
        ∀ entry ∈ sharedColumns.projection,
          entry.2.shown I functions row = entry.2.shown I functions row' := by
  have hnamed : sharedColumns.SelectsByName := by
    refine ⟨by decide, "a, b", [0, 0], _, rfl, ?_⟩
    exact .operand rfl (.here _)
  have hread : Selection.read? sharedColumns.selectList = some (.only ["a, b", "na\"me"]) := by
    decide +kernel
  obtain ⟨hlist, -, hsame⟩ := selection_is_sufficient_and_minimal sharedColumns
  obtain ⟨names, -, -, hreads, hbefore, hnames⟩ := hlist hnamed
  obtain rfl : ["a, b", "na\"me"] = names := by
    have hboth := hread.symm.trans hnames
    simpa using hboth
  refine ⟨hnamed, by decide +kernel, hread, ?_, fun halias => ?_, ?_⟩
  · exact (List.pairwise_cons.mp hbefore).1 _ (by simp)
  · have hmem := (hreads "Alias").mpr halias
    simp at hmem
  · intro row row' hfirst hsecond I functions
    exact hsame Nat I functions _ row row' hread (by simp [Selection.Has, hfirst, hsecond])

end Shape

end EntityQuery
