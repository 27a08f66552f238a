import EntityQuery.Proofs.Rendering
import Mathlib.Data.List.Forall2

/-!
Placeholders and parameters line up.

The text of a statement is put together from pieces, among them names in double quotes, which may
hold question marks and quotes of their own. Each piece closes the quotes it opens, so what lies
outside quotes in the whole is what lies outside in the pieces, one after another.

* `outsideFrom` -- the characters outside double quotes;
* `Statement.placeholders` -- the number of question marks among them;
* `Statement.Fits` -- a piece closes its quotes, has a placeholder for each of some constants, and
  their parameters in the same order;
* `Expr.fits_render` -- **a rendered expression fits its constants**;
* `Shape.fits_statement` -- so does the statement of a shape;
* `Shape.placeholders_match_parameters` -- the same in terms of the text and the parameters.
-/
namespace EntityQuery

/-! ## 1. Outside quotes -/

/-- The characters of a text outside double quotes; `inside` says whether it starts between quotes.
    A quote that is doubled in a quoted name closes the name and opens it again, with nothing in
    between. -/
def outsideFrom (inside : Bool) : List Char → List Char
  | [] => []
  | c :: s =>
    if c = '"' then outsideFrom (!inside) s
    else if inside then outsideFrom inside s
    else c :: outsideFrom inside s

/-- Is the end of a text between quotes? -/
def insideAfter (inside : Bool) : List Char → Bool
  | [] => inside
  | c :: s => insideAfter (if c = '"' then !inside else inside) s

theorem insideAfter_append (inside : Bool) (s t : List Char) :
    insideAfter inside (s ++ t) = insideAfter (insideAfter inside s) t := by
  induction s generalizing inside with
  | nil => rfl
  | cons c s ih => exact ih _

theorem outsideFrom_append (inside : Bool) (s t : List Char) :
    outsideFrom inside (s ++ t) = outsideFrom inside s ++ outsideFrom (insideAfter inside s) t := by
  induction s generalizing inside with
  | nil => rfl
  | cons c s ih =>
    rw [List.cons_append, outsideFrom, outsideFrom, insideAfter]
    by_cases hc : c = '"'
    · rw [if_pos hc, if_pos hc, if_pos hc]
      exact ih _
    · rw [if_neg hc, if_neg hc, if_neg hc]
      cases inside with
      | true => exact ih true
      | false => exact congrArg (c :: ·) (ih false)

/-- Without quotes everything is outside. -/
theorem outsideFrom_of_not_mem {s : List Char} (h : '"' ∉ s) :
    outsideFrom false s = s ∧ insideAfter false s = false := by
  induction s with
  | nil => exact ⟨rfl, rfl⟩
  | cons c s ih =>
    simp only [List.mem_cons, not_or] at h
    obtain ⟨hout, hafter⟩ := ih h.2
    rw [outsideFrom, insideAfter, if_neg (Ne.symm h.1), if_neg (Ne.symm h.1)]
    exact ⟨congrArg (c :: ·) hout, hafter⟩

/-- A name with its quotes doubled stays between quotes. -/
theorem outsideFrom_doubled (name : List Char) :
    outsideFrom true (name.flatMap fun c => if c = '"' then ['"', '"'] else [c]) = [] ∧
      insideAfter true (name.flatMap fun c => if c = '"' then ['"', '"'] else [c]) = true := by
  induction name with
  | nil => exact ⟨rfl, rfl⟩
  | cons c name ih =>
    rw [List.flatMap_cons]
    by_cases hc : c = '"'
    · simpa [hc, outsideFrom, insideAfter] using ih
    · simpa [hc, outsideFrom, insideAfter] using ih

/-- The number of placeholders of a statement: the question marks outside quoted names. -/
def Statement.placeholders (s : Statement) : Nat := (outsideFrom false s.text.toList).count '?'

/-! ## 2. Pieces of statements -/

/-- The parameter for a constant with a mapping or without one. -/
def Parameter.ofConstant (c : Literal × Option Mapping) : Parameter :=
  { type := (c.2.map Mapping.stored).getD c.1.type.stored, value := c.1.storedValue }

theorem Parameter.of_eq_ofConstant (value : Literal) (mapping : Option Mapping) :
    Parameter.of value mapping = .ofConstant (value, mapping) := by
  cases mapping <;> rfl

/-- A piece of a statement closes its quotes, has a placeholder for each of the constants, and their
    parameters in turn. -/
structure Statement.Fits (s : Statement) (constants : List (Literal × Option Mapping)) : Prop where
  closed : insideAfter false s.text.toList = false
  placeholders : s.placeholders = constants.length
  parameters : s.parameters = constants.map Parameter.ofConstant

namespace Statement.Fits

variable {s t : Statement} {cs ds : List (Literal × Option Mapping)}

theorem append (hs : s.Fits cs) (ht : t.Fits ds) : (s ++ t).Fits (cs ++ ds) where
  closed := by
    rw [text_append, String.toList_append, insideAfter_append, hs.closed]
    exact ht.closed
  placeholders := by
    unfold Statement.placeholders
    rw [text_append, String.toList_append, outsideFrom_append, hs.closed, List.count_append,
      List.length_append]
    exact congrArg₂ (· + ·) hs.placeholders ht.placeholders
  parameters := by rw [parameters_append, hs.parameters, ht.parameters, List.map_append]

/-- A text without quotes and question marks. -/
theorem ofText {text : String} (hq : '"' ∉ text.toList) (hp : '?' ∉ text.toList) :
    (Statement.ofText text).Fits [] where
  closed := (outsideFrom_of_not_mem hq).2
  placeholders := by
    show (outsideFrom false text.toList).count '?' = 0
    rw [(outsideFrom_of_not_mem hq).1]
    exact List.count_eq_zero.mpr hp
  parameters := rfl

/-- What stands between the items of a list. -/
theorem comma : (Statement.ofText ", ").Fits [] := .ofText (by decide) (by decide)

/-- A quoted name, whatever it holds. -/
theorem quoteName (name : String) : (Statement.ofText (quoteName name)).Fits [] := by
  obtain ⟨hout, hafter⟩ := outsideFrom_doubled name.toList
  have htext : (EntityQuery.quoteName name).toList =
      '"' :: ((name.toList.flatMap fun c => if c = '"' then ['"', '"'] else [c]) ++ ['"']) := by
    simp [EntityQuery.quoteName, String.toList_append]
  refine ⟨?_, ?_, rfl⟩
  · show insideAfter false (EntityQuery.quoteName name).toList = false
    rw [htext, insideAfter, insideAfter_append]
    simp [hafter, insideAfter]
  · show (outsideFrom false (EntityQuery.quoteName name).toList).count '?' = 0
    rw [htext, outsideFrom, if_pos rfl, outsideFrom_append]
    simp [hout, outsideFrom]

/-- The placeholder of one constant. -/
theorem placeholder (value : Literal) (mapping : Option Mapping) :
    Statement.Fits { text := "?", parameters := [.of value mapping] } [(value, mapping)] where
  closed := by
    show insideAfter false "?".toList = false
    decide
  placeholders := by
    show (outsideFrom false "?".toList).count '?' = 1
    decide
  parameters := congrArg (fun p => [p]) (Parameter.of_eq_ofConstant value mapping)

/-- A piece between two texts. -/
theorem enclosed (hs : s.Fits cs) {before after : String}
    (hb : (Statement.ofText before).Fits []) (ha : (Statement.ofText after).Fits []) :
    (Statement.ofText before ++ s ++ Statement.ofText after).Fits cs := by
  have h := (hb.append hs).append ha
  rwa [List.nil_append, List.append_nil] at h

theorem wrap (hs : s.Fits cs) (nested : Bool) : (Expr.wrap nested s).Fits cs := by
  unfold Expr.wrap
  split
  · exact hs.enclosed (.ofText (by decide) (by decide)) (.ofText (by decide) (by decide))
  · exact hs

/-- Pieces with a text between them. -/
theorem intercalate {separator : String} (hseparator : (Statement.ofText separator).Fits []) :
    ∀ {ss : List Statement} {css : List (List (Literal × Option Mapping))},
      List.Forall₂ Statement.Fits ss css → (Statement.intercalate separator ss).Fits css.flatten
  | _, _, .nil => .ofText (by decide) (by decide)
  | _, _, .cons hs .nil => by
    rw [List.flatten_cons, List.flatten_nil, List.append_nil]
    exact hs
  | _, _, .cons hs (.cons ht hrest) => by
    have htail := intercalate hseparator (.cons ht hrest)
    have h := (hs.append hseparator).append htail
    rwa [List.append_nil] at h

/-- Texts with a text between them. -/
theorem ofText_intercalate {separator : String}
    (hseparator : (Statement.ofText separator).Fits []) :
    ∀ {texts : List String}, (∀ text ∈ texts, (Statement.ofText text).Fits []) →
      (Statement.ofText (separator.intercalate texts)).Fits []
  | [], _ => by
    show (Statement.ofText "").Fits []
    exact .ofText (by decide) (by decide)
  | [text], h => by
    rw [String.intercalate_singleton]
    exact h text List.mem_cons_self
  | text :: next :: rest, h => by
    have htail := ofText_intercalate hseparator fun t ht => h t (List.mem_cons_of_mem text ht)
    rw [String.intercalate_cons_cons]
    exact ((h text List.mem_cons_self).append hseparator).append htail

end Statement.Fits

/-! ## 3. Expressions -/

/-- A computation in two steps succeeds only if both do. -/
theorem exists_of_bind_eq_ok {ε α β : Type} {x : Except ε α} {f : α → Except ε β} {b : β}
    (h : (x >>= f) = .ok b) : ∃ a, x = .ok a ∧ f a = .ok b := by
  cases x with
  | error e => cases h
  | ok a => exact ⟨a, rfl, h⟩

/-- What is rendered in turn fits in turn. -/
theorem Statement.fits_mapM {α : Type} {render : α → Except RenderFault Statement}
    {constants : α → List (Literal × Option Mapping)} :
    ∀ {as : List α}, (∀ a ∈ as, ∀ s, render a = .ok s → s.Fits (constants a)) →
      ∀ {ss : List Statement}, as.mapM render = .ok ss →
        List.Forall₂ Statement.Fits ss (as.map constants)
  | [], _, _, h => by
    cases h
    exact .nil
  | a :: as, hfits, ss, h => by
    rw [List.mapM_cons] at h
    obtain ⟨s, hs, h⟩ := exists_of_bind_eq_ok h
    obtain ⟨ss, hss, h⟩ := exists_of_bind_eq_ok h
    cases h
    exact .cons (hfits a List.mem_cons_self s hs)
      (fits_mapM (fun b hb => hfits b (List.mem_cons_of_mem a hb)) hss)

/-- A name that can stand in a statement without quotes around it. -/
def IsBareName (name : String) : Prop := '?' ∉ name.toList ∧ '"' ∉ name.toList

namespace Expr

theorem renderAll_eq_mapM (es : List Expr) : renderAll es = es.mapM (render false) := by
  induction es with
  | nil => rfl
  | cons e es ih => rw [renderAll, List.mapM_cons, ih]

/-- The text between the operands of an operator. -/
theorem fits_token (op : BinaryOp) : (Statement.ofText (" " ++ op.token ++ " ")).Fits [] := by
  cases op <;> exact .ofText (by decide) (by decide)

/-- The text of a test for null. -/
theorem fits_nullTest {op : BinaryOp} {test : String} (h : op.nullTest? = some test) :
    (Statement.ofText test).Fits [] := by
  cases op <;> cases h <;> exact .ofText (by decide) (by decide)

/-- **A rendered expression fits its constants.** -/
theorem fits_render {e : Expr} (hf : ∀ name ∈ e.functions, IsBareName name) {nested : Bool}
    {s : Statement} (h : e.render nested = .ok s) : s.Fits e.constants := by
  induction e generalizing nested s with
  | constant value type mapping =>
    cases value with
    | none =>
      cases h
      exact .ofText (by decide) (by decide)
    | some value =>
      cases h
      exact .placeholder value mapping
  | unary op operand type mapping ih =>
    rw [render] at h
    obtain ⟨t, ht, h⟩ := exists_of_bind_eq_ok h
    cases h
    have hlead : (Statement.ofText op.lead).Fits [] := by
      cases op <;> exact .ofText (by decide) (by decide)
    exact hlead.append (ih hf ht)
  | binary op left right type mapping ihl ihr =>
    rw [functions_binary] at hf
    have hl : ∀ {s}, left.render true = .ok s → s.Fits left.constants :=
      ihl fun name hn => hf name (List.mem_append_left _ hn)
    have hr : ∀ {s}, right.render true = .ok s → s.Fits right.constants :=
      ihr fun name hn => hf name (List.mem_append_right _ hn)
    rw [constants_binary]
    rw [render] at h
    -- a test for null leaves one side out, and that side is null
    split at h
    · rename_i test hop hnull
      obtain ⟨t, ht, h⟩ := exists_of_bind_eq_ok h
      cases h
      rw [constants_of_isNull hnull]
      exact ((hl ht).append (fits_nullTest hop)).wrap nested
    · rename_i test hop hnull _
      obtain ⟨t, ht, h⟩ := exists_of_bind_eq_ok h
      cases h
      have hfits := ((hr ht).append (fits_nullTest hop)).wrap nested
      rw [List.append_nil] at hfits
      rwa [constants_of_isNull hnull]
    · obtain ⟨t, ht, h⟩ := exists_of_bind_eq_ok h
      obtain ⟨u, hu, h⟩ := exists_of_bind_eq_ok h
      cases h
      have hfits := ((hl ht).append (fits_token op)).append (hr hu)
      rw [List.append_nil] at hfits
      exact hfits.wrap nested
  | call function arguments type mapping ih =>
    rw [functions_call] at hf
    rw [constants_call]
    rw [render] at h
    obtain ⟨ss, hss, h⟩ := exists_of_bind_eq_ok h
    cases h
    rw [renderAll_eq_mapM] at hss
    have hargs := Statement.fits_mapM (fun e he s hs =>
      ih e he (fun name hn => hf name (List.mem_cons_of_mem _ (List.mem_flatMap.mpr ⟨e, he, hn⟩))) hs)
      hss
    have hname := hf function List.mem_cons_self
    have hopen : (Statement.ofText (function ++ "(")).Fits [] := by
      refine .ofText ?_ ?_
      · rw [String.toList_append]
        simpa using hname.2
      · rw [String.toList_append]
        simpa using hname.1
    have hlist := Statement.Fits.intercalate .comma hargs
    rw [← List.flatMap_def] at hlist
    exact hlist.enclosed hopen (.ofText (by decide) (by decide))
  | attr ref =>
    cases h
    exact .quoteName ref.property.storedAs
  | row ref => cases h

end Expr

/-! ## 4. Shapes -/

namespace Shape

/-- The expressions that a statement writes out: the condition, then the terms of the order. -/
def written (shape : Shape) : List Expr := shape.filter.toList ++ shape.order.map OrderTerm.expr

/-- What is selected has no placeholders. -/
theorem fits_selectList (shape : Shape) : (Statement.ofText shape.selectList).Fits [] := by
  unfold selectList
  split
  · exact .ofText (by decide) (by decide)
  · refine .ofText_intercalate .comma fun text htext => ?_
    obtain ⟨name, _, rfl⟩ := List.mem_map.mp htext
    exact .quoteName name

theorem fits_whereClause {shape : Shape}
    (hf : ∀ e ∈ shape.filter.toList, ∀ name ∈ e.functions, IsBareName name) {s : Statement}
    (h : shape.whereClause = .ok s) : s.Fits (shape.filter.toList.flatMap Expr.constants) := by
  unfold whereClause at h
  cases hfilter : shape.filter with
  | none =>
    rw [hfilter] at h
    cases h
    exact .ofText (by decide) (by decide)
  | some e =>
    rw [hfilter] at h hf
    obtain ⟨t, ht, h⟩ := exists_of_bind_eq_ok h
    cases h
    have hlead : (Statement.ofText " WHERE ").Fits [] := .ofText (by decide) (by decide)
    have hfits := hlead.append (Expr.fits_render (hf e (by simp)) ht)
    simpa using hfits

theorem fits_orderTerm {o : OrderTerm} (hf : ∀ name ∈ o.expr.functions, IsBareName name)
    {s : Statement} (h : o.render = .ok s) : s.Fits o.expr.constants := by
  obtain ⟨t, ht, h⟩ := exists_of_bind_eq_ok h
  cases h
  have hterm := Expr.fits_render hf ht
  split
  · have hdesc : (Statement.ofText " DESC").Fits [] := .ofText (by decide) (by decide)
    have hfits := hterm.append hdesc
    rwa [List.append_nil] at hfits
  · exact hterm

theorem fits_orderClause {shape : Shape}
    (hf : ∀ o ∈ shape.order, ∀ name ∈ o.expr.functions, IsBareName name) {s : Statement}
    (h : shape.orderClause = .ok s) : s.Fits (shape.order.flatMap fun o => o.expr.constants) := by
  unfold orderClause at h
  split at h
  · rename_i hempty
    cases h
    rw [List.isEmpty_iff.mp hempty]
    exact .ofText (by decide) (by decide)
  · obtain ⟨ss, hss, h⟩ := exists_of_bind_eq_ok h
    cases h
    have hlead : (Statement.ofText " ORDER BY ").Fits [] := .ofText (by decide) (by decide)
    have hterms := Statement.fits_mapM (fun o ho _ hs => fits_orderTerm (hf o ho) hs) hss
    have hlist := Statement.Fits.intercalate .comma hterms
    rw [← List.flatMap_def] at hlist
    exact hlead.append hlist

/-- **The statement of a shape fits the constants of its condition and its order.** -/
theorem fits_statement {shape : Shape}
    (hf : ∀ e ∈ shape.written, ∀ name ∈ e.functions, IsBareName name) {s : Statement}
    (h : shape.statement = .ok s) : s.Fits (shape.written.flatMap Expr.constants) := by
  unfold statement at h
  obtain ⟨condition, hcondition, h⟩ := exists_of_bind_eq_ok h
  obtain ⟨order, horder, h⟩ := exists_of_bind_eq_ok h
  cases h
  have hc := fits_whereClause (fun e he => hf e (List.mem_append_left _ he)) hcondition
  have ho := fits_orderClause (fun o ho => hf o.expr
    (List.mem_append_right _ (List.mem_map_of_mem ho))) horder
  have hselect : (Statement.ofText "SELECT ").Fits [] := .ofText (by decide) (by decide)
  have hfrom : (Statement.ofText " FROM ").Fits [] := .ofText (by decide) (by decide)
  have hhead := ((hselect.append (fits_selectList shape)).append hfrom).append
    (.quoteName shape.source.table)
  have hfits := (hhead.append hc).append ho
  rw [written, List.flatMap_append, List.flatMap_map]
  exact hfits

end Shape

/-! ## 5. Statements -/

/-- The functions of the built-in rules have bare names. -/
theorem Query.Renderable.bareName_of_mem {model : Model} {root : Entity} {q : Query}
    (h : q.Renderable model root) :
    ∀ e ∈ q.shape.written, ∀ name ∈ e.functions, IsBareName name := by
  intro e he name hname
  have hfilter : q.shape.filter = some e := by
    simpa [Shape.written, h.unordered] using he
  obtain ⟨n, hn, hfunction⟩ := List.mem_filterMap.mp hname
  have hscalar := Expr.isScalar_of_mem_nodes (h.condition e hfilter) n hn
  cases n with
  | call function arguments type mapping =>
    cases hfunction
    rcases (Expr.isScalar_call hscalar).1 with rfl | rfl
    · exact ⟨by decide, by decide⟩
    · exact ⟨by decide, by decide⟩
  | _ => cases hfunction

/-- **Placeholders and parameters line up.** If no function of the condition and the order has a
    question mark or a quote in its name, a statement has as many question marks outside quoted
    names as parameters; and these are the constants other than null of the condition, then of the
    order, from left to right, each stored as its mapping says or, without one, as its own type. The
    query of a chain has no other functions under the built-in rules. -/
theorem Shape.placeholders_match_parameters :
    (∀ (shape : Shape) (s : Statement),
      (∀ e ∈ shape.written, ∀ name ∈ e.functions, '?' ∉ name.toList ∧ '"' ∉ name.toList) →
      shape.statement = .ok s →
        s.placeholders = s.parameters.length ∧
        s.parameters = (shape.written.flatMap Expr.constants).map fun c =>
          { type := (c.2.map Mapping.stored).getD c.1.type.stored, value := c.1.storedValue }) ∧
    ∀ (model : Model) (chain : Chain) (q : Query), model.context.run chain = .ok q →
      ∀ e ∈ q.shape.written, ∀ name ∈ e.functions, '?' ∉ name.toList ∧ '"' ∉ name.toList := by
  constructor
  · intro shape s hf h
    have hfits := fits_statement hf h
    refine ⟨?_, hfits.parameters⟩
    rw [hfits.placeholders, hfits.parameters, List.length_map]
  · intro model chain q h
    obtain ⟨root, hq⟩ := Query.Renderable.of_run h
    exact hq.bareName_of_mem

/-- A shape with question marks and quotes in its names, a null on the left of a comparison, and a
    constant in its order. -/
def Shape.awkward : Shape where
  source := { entity := "Person", table := "who?\"" }
  filter := some (.both
    (.ofBinary .equal (.null .object) (.attr (.of { name := "A", type := .string, storedAs := some "a\"?" }
      { entity := "Person", table := "who?\"" })))
    (.ofBinary .less (.ofLiteral (.int32 18) none) (.ofLiteral (.string "?") none)))
  order := [{ expr := .ofLiteral (.bool true) none, descending := true }]

/-- Three placeholders, beside two question marks in names. -/
theorem Shape.placeholders_match_parameters_of_awkward :
    ∃ s, Shape.awkward.statement = .ok s ∧
      s.text = "SELECT * FROM \"who?\"\"\" WHERE (\"a\"\"?\" IS NULL) AND (? < ?) ORDER BY ? DESC" ∧
      s.placeholders = 3 ∧
      s.parameters = [⟨.number, .text "18"⟩, ⟨.text, .text "?"⟩, ⟨.boolean, .flag true⟩] := by
  have hs : Shape.awkward.statement = .ok
      { text := "SELECT * FROM \"who?\"\"\" WHERE (\"a\"\"?\" IS NULL) AND (? < ?) ORDER BY ? DESC"
        parameters := [⟨.number, .text "18"⟩, ⟨.text, .text "?"⟩, ⟨.boolean, .flag true⟩] } := by
    decide +kernel
  obtain ⟨hcount, _⟩ := Shape.placeholders_match_parameters.1 _ _ (by decide) hs
  exact ⟨_, hs, rfl, hcount, rfl⟩

end EntityQuery
