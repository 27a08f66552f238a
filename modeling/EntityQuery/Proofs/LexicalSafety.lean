import EntityQuery.Proofs.OutsideNames

/-!
What a statement has outside its names.

No name ends its own quotes, and outside the names there is no comment, quote or semicolon, but for
one case: a minus is written without a blank, so that two of them begin a comment.

* `Skeleton.DoublesMinus` -- a minus stands directly before a minus;
* `Skeleton.dashes_spelling` -- **only then two dashes stand in a row**;
* `Expr.names_tokens` -- the names in a text are those of its attributes;
* `Query.Renderable.lex_statement` -- both for the statement of a query;
* `Model.statements_are_safe_but_for_minus` -- so for the statement of every chain.
-/
namespace EntityQuery

/-! ## 1. Two dashes -/

/-- Two dashes in a row, outside double quotes: for a store the beginning of a comment, where
    `Token.lex` sees two minus signs. -/
def DashesOutside (text : List Char) : Prop := OccursOutside ['-', '-'] text

section Dashes

variable {s t : List Char}

theorem not_dashes_of_not_mem (h : '-' ∉ s) : ¬ DashesOutside s := by
  rintro ⟨before, after, rfl, _⟩
  exact h (by simp)

/-- Two dashes occur in one of two pieces, or where they meet. -/
theorem dashes_append (hs : insideAfter false s = false) :
    DashesOutside (s ++ t) ↔
      DashesOutside s ∨ DashesOutside t ∨ s.getLast? = some '-' ∧ t.head? = some '-' := by
  constructor
  · rintro ⟨before, after, heq, hbefore⟩
    rcases List.append_eq_append_iff.mp heq with ⟨front, rfl, rfl⟩ | ⟨back, rfl, hback⟩
    · rw [insideAfter_append, hs] at hbefore
      exact Or.inr (Or.inl ⟨front, after, rfl, hbefore⟩)
    · -- the dashes begin in the first piece, or right behind it
      match back, hback with
      | [], hback => exact Or.inr (Or.inl ⟨[], after, hback.symm, rfl⟩)
      | [c], hback =>
        cases hback
        exact Or.inr (Or.inr ⟨by simp, rfl⟩)
      | c :: d :: back, hback =>
        cases hback
        exact Or.inl ⟨before, back, rfl, hbefore⟩
  · rintro (⟨before, after, rfl, hbefore⟩ | ⟨before, after, rfl, hbefore⟩ | ⟨hlast, hhead⟩)
    · exact ⟨before, after ++ t, by simp, hbefore⟩
    · refine ⟨s ++ before, after, by simp, ?_⟩
      rw [insideAfter_append, hs, hbefore]
    · obtain ⟨before, rfl⟩ := List.getLast?_eq_some_iff.mp hlast
      obtain ⟨after, rfl⟩ := List.head?_eq_some_iff.mp hhead
      refine ⟨before, after, by simp, ?_⟩
      rw [insideAfter_append] at hs
      exact hs

/-- A piece without quotes and dashes before another adds nothing. -/
theorem dashes_plain_append (hs : '"' ∉ s) (hdash : '-' ∉ s) :
    DashesOutside (s ++ t) ↔ DashesOutside t := by
  have hlast : s.getLast? ≠ some '-' := fun h => hdash (List.mem_of_getLast? h)
  rw [dashes_append (outsideFrom_of_not_mem hs).2]
  simp [not_dashes_of_not_mem hdash, hlast]

/-- A piece that begins with something else than a dash can be taken by itself. -/
theorem dashes_append_cons {c : Char} (hs : insideAfter false s = false) (hc : c ≠ '-') :
    DashesOutside (s ++ c :: t) ↔ DashesOutside s ∨ DashesOutside (c :: t) := by
  rw [dashes_append hs]
  simp [hc]

end Dashes

namespace Skeleton

/-- A minus stands directly before a minus. -/
inductive DoublesMinus : Skeleton → Prop where
  | here (s : Skeleton) : DoublesMinus (.unary .negate (.unary .negate s))
  | unary (op : Expr.UnaryOp) {operand : Skeleton} (h : DoublesMinus operand) :
      DoublesMinus (.unary op operand)
  | left (op : Expr.BinaryOp) {left : Skeleton} (right : Skeleton) (h : DoublesMinus left) :
      DoublesMinus (.binary op left right)
  | right (op : Expr.BinaryOp) (left : Skeleton) {right : Skeleton} (h : DoublesMinus right) :
      DoublesMinus (.binary op left right)
  | nullTest (negated : Bool) {operand : Skeleton} (h : DoublesMinus operand) :
      DoublesMinus (.nullTest negated operand)
  | call (function : String) {arguments : List Skeleton} {s : Skeleton} (hs : s ∈ arguments)
      (h : DoublesMinus s) : DoublesMinus (.call function arguments)

theorem closed_spelling {s : Skeleton} (h : s.Known) (nested : Bool) :
    insideAfter false (s.spelling nested) = false :=
  Token.closed_of_lex (lex_spelling h nested)

theorem dashes_enclosed {cs : List Char} (hcs : insideAfter false cs = false) (nested : Bool) :
    DashesOutside (enclosed '(' ')' nested cs) ↔ DashesOutside cs := by
  cases nested with
  | false => rfl
  | true =>
    have hopen := @dashes_plain_append ['('] (cs ++ [')']) (by decide) (by decide)
    have hclose : ¬ DashesOutside [')'] := not_dashes_of_not_mem (by decide)
    refine hopen.trans ((dashes_append_cons hcs (by decide)).trans ?_)
    simp [hclose]

/-- An operand begins with a dash if it is a minus of something. -/
theorem head?_spelling {s : Skeleton} (h : s.Known) :
    (s.spelling true).head? = some '-' ↔ ∃ t, s = .unary .negate t := by
  cases h with
  | unary op _ =>
    cases op with
    | not => simp [spelling, Expr.UnaryOp.lead]
    | negate => simp [spelling, Expr.UnaryOp.lead]
  | call hf _ =>
    rcases hf with rfl | rfl
    · simp [spelling]
    · simp [spelling]
  | name n => simp [spelling, quoteName, String.toList_append]
  | _ => simp [spelling, enclosed]

theorem dashes_arguments :
    ∀ {ss : List Skeleton}, (∀ s ∈ ss, s.Known) →
      (DashesOutside ([',', ' '].intercalate (spellings ss) ++ [')']) ↔
        ∃ s ∈ ss, DashesOutside (s.spelling false))
  | [], _ => by
    have hclose : ¬ DashesOutside [')'] := not_dashes_of_not_mem (by decide)
    simpa [spellings] using hclose
  | [s], h => by
    have hclose : ¬ DashesOutside [')'] := not_dashes_of_not_mem (by decide)
    rw [spellings, spellings, List.intercalate_singleton,
      dashes_append_cons (closed_spelling (h s List.mem_cons_self) false) (by decide)]
    simp [hclose]
  | s :: t :: rest, h => by
    have hrest := dashes_arguments fun u hu => h u (List.mem_cons_of_mem s hu)
    have hcomma := @dashes_plain_append [',', ' ']
      ([',', ' '].intercalate (spellings (t :: rest)) ++ [')']) (by decide) (by decide)
    have hsplit : [',', ' '].intercalate (spellings (s :: t :: rest)) ++ [')'] =
        s.spelling false ++ ',' :: ' ' ::
          ([',', ' '].intercalate (spellings (t :: rest)) ++ [')']) := by
      simp [spellings]
    rw [hsplit, dashes_append_cons (closed_spelling (h s List.mem_cons_self) false) (by decide)]
    refine (or_congr_right (hcomma.trans hrest)).trans ?_
    simp

theorem doublesMinus_negate {s : Skeleton} :
    (Skeleton.unary .negate s).DoublesMinus ↔ s.DoublesMinus ∨ ∃ t, s = .unary .negate t := by
  constructor
  · intro h
    cases h with
    | here t => exact Or.inr ⟨t, rfl⟩
    | unary _ h => exact Or.inl h
  · rintro (h | ⟨t, rfl⟩)
    · exact .unary .negate h
    · exact .here t

/-- **Two dashes stand in a row only for a minus before a minus.** -/
theorem dashes_spelling {s : Skeleton} (h : s.Known) (nested : Bool) :
    DashesOutside (s.spelling nested) ↔ s.DoublesMinus := by
  induction h generalizing nested with
  | null => exact iff_of_false (not_dashes_of_not_mem (by simp [spelling])) (fun h => by cases h)
  | placeholder =>
    exact iff_of_false (not_dashes_of_not_mem (by simp [spelling])) (fun h => by cases h)
  | name n =>
    refine iff_of_false (fun ho => ?_) (fun h => by cases h)
    cases List.mem_singleton.mp (Token.negate_of_occurs (Token.lex_quoteName n) ho)
  | @unary op operand hoperand ih =>
    cases op with
    | not =>
      rw [spelling, dashes_plain_append (by decide) (by decide), ih true]
      constructor
      · exact fun h => .unary .not h
      · intro h
        cases h with
        | unary _ h => exact h
    | negate =>
      have hminus : ¬ DashesOutside Expr.UnaryOp.negate.lead.toList := by
        rintro ⟨before, after, heq, _⟩
        have hlength := congrArg List.length heq
        simp [Expr.UnaryOp.lead] at hlength
        omega
      have hlast : Expr.UnaryOp.negate.lead.toList.getLast? = some '-' := rfl
      rw [spelling, dashes_append rfl, ih true, head?_spelling hoperand, doublesMinus_negate]
      simp [hminus, hlast]
  | @binary op left right hl hr ihl ihr =>
    have hop : ∀ t, DashesOutside (' ' :: (op.token.toList ++ ' ' :: t)) ↔ DashesOutside t := by
      intro t
      have hplain := @dashes_plain_append (' ' :: (op.token.toList ++ [' '])) t
        (by cases op <;> decide) (by cases op <;> decide)
      simpa using hplain
    have hclosed : insideAfter false (left.spelling true ++
        ' ' :: (op.token.toList ++ ' ' :: right.spelling true)) = false :=
      closed_spelling (.binary op hl hr) false
    rw [spelling, dashes_enclosed hclosed,
      dashes_append_cons (closed_spelling hl true) (by decide), hop, ihl true, ihr true]
    constructor
    · rintro (h | h)
      · exact .left op right h
      · exact .right op left h
    · intro h
      cases h with
      | left _ _ h => exact Or.inl h
      | right _ _ h => exact Or.inr h
  | @nullTest negated operand hoperand ih =>
    obtain ⟨cs, hcs⟩ : ∃ cs, testSpelling negated = ' ' :: cs := by
      cases negated <;> exact ⟨_, rfl⟩
    have htest : ¬ DashesOutside (testSpelling negated) :=
      not_dashes_of_not_mem (by cases negated <;> decide)
    have hclosed : insideAfter false (operand.spelling true ++ testSpelling negated) = false :=
      closed_spelling (.nullTest negated hoperand) false
    rw [spelling, dashes_enclosed hclosed, hcs,
      dashes_append_cons (closed_spelling hoperand true) (by decide), ← hcs, ih true]
    simp only [htest, or_false]
    constructor
    · exact fun h => .nullTest negated h
    · intro h
      cases h with
      | nullTest _ h => exact h
  | @call function hf arguments hargs ih =>
    have hopen := @dashes_plain_append (function.toList ++ ['('])
      ([',', ' '].intercalate (spellings arguments) ++ [')'])
      (by rcases hf with rfl | rfl <;> decide) (by rcases hf with rfl | rfl <;> decide)
    rw [List.append_assoc] at hopen
    refine hopen.trans ((dashes_arguments hargs).trans ?_)
    constructor
    · rintro ⟨s, hs, h⟩
      exact .call function hs ((ih s hs false).mp h)
    · intro h
      cases h with
      | @call _ _ s hs h => exact ⟨s, hs, (ih s hs false).mpr h⟩

end Skeleton

/-! ## 2. Names -/

/-- The name that a token is. -/
def Token.name? : Token → Option String
  | .name n => some n
  | _ => none

/-- The names among tokens. -/
def Token.names (ts : List Token) : List String := ts.filterMap Token.name?

@[simp] theorem Token.names_append (ts us : List Token) :
    Token.names (ts ++ us) = Token.names ts ++ Token.names us :=
  List.filterMap_append

theorem Skeleton.names_enclosed (nested : Bool) (ts : List Token) :
    Token.names (enclosed .opening .closing nested ts) = Token.names ts := by
  cases nested with
  | false => rfl
  | true =>
    show Token.names (ts ++ [.closing]) = _
    rw [Token.names_append]
    exact List.append_nil _

theorem Skeleton.names_furtherTokens (ss : List Skeleton) :
    Token.names (furtherTokens ss) = ss.flatMap fun s => Token.names (s.tokens false) := by
  induction ss with
  | nil => rfl
  | cons s ss ih =>
    show Token.names (s.tokens false ++ furtherTokens ss) = _
    rw [Token.names_append, ih, List.flatMap_cons]

theorem Skeleton.names_argumentTokens (ss : List Skeleton) :
    Token.names (argumentTokens ss) = ss.flatMap fun s => Token.names (s.tokens false) := by
  cases ss with
  | nil => rfl
  | cons s ss => rw [argumentTokens, Token.names_append, names_furtherTokens, List.flatMap_cons]

/-- The stored names of the attributes that an expression reads, from left to right. -/
def Expr.attributeNames (e : Expr) : List String :=
  e.attributes.map fun ref => ref.property.storedAs

theorem Expr.attributeNames_of_isNull {e : Expr} (h : e.isNull = true) : e.attributeNames = [] := by
  unfold attributeNames
  rw [attributes_of_isNull h]
  rfl

theorem Skeleton.names_binary (op : Expr.BinaryOp) (left right : Skeleton) (nested : Bool) :
    Token.names ((Skeleton.binary op left right).tokens nested) =
      Token.names (left.tokens true) ++ Token.names (right.tokens true) := by
  rw [tokens, names_enclosed, Token.names_append]
  rfl

theorem Skeleton.names_nullTest (negated : Bool) (operand : Skeleton) (nested : Bool) :
    Token.names ((Skeleton.nullTest negated operand).tokens nested) =
      Token.names (operand.tokens true) := by
  have htest : Token.names (testTokens negated) = [] := by
    cases negated <;> rfl
  rw [tokens, names_enclosed, Token.names_append, htest, List.append_nil]

/-- **The names in the text of an expression are those of its attributes.** -/
theorem Expr.names_tokens (e : Expr) (nested : Bool) :
    Token.names (e.skeleton.tokens nested) = e.attributeNames := by
  induction e generalizing nested with
  | constant value type mapping => cases value <;> rfl
  | unary op operand type mapping ih => exact ih true
  | binary op left right type mapping ihl ihr =>
    have hnames : (Expr.binary op left right type mapping).attributeNames =
        left.attributeNames ++ right.attributeNames := List.map_append
    rw [hnames, skeleton]
    rcases Skeleton.ofBinary_cases op left.isNull right.isNull left.skeleton right.skeleton with
      ⟨hnull, negated, heq⟩ | ⟨hnull, negated, heq⟩ | heq
    · rw [heq, Skeleton.names_nullTest, ihl true, attributeNames_of_isNull hnull, List.append_nil]
    · rw [heq, Skeleton.names_nullTest, ihr true, attributeNames_of_isNull hnull, List.nil_append]
    · rw [heq, Skeleton.names_binary, ihl true, ihr true]
  | call function arguments type mapping ih =>
    have hnames : (Expr.call function arguments type mapping).attributeNames =
        arguments.flatMap attributeNames := by
      unfold attributeNames
      rw [attributes, attributesIn_eq_flatMap, List.map_flatMap]
    show Token.names (Skeleton.argumentTokens (skeletons arguments)) = _
    rw [Skeleton.names_argumentTokens, skeletons_eq_map, hnames, List.flatMap_map]
    exact List.flatMap_congr fun e he => ih e he false
  | attr ref => rfl
  | row ref => rfl

/-! ## 3. Statements -/

/-- The text has tokens, the names among them are these, and there is no minus. -/
def Token.Lists (text : List Char) (names : List String) : Prop :=
  ∃ ts, lex text = some ts ∧ Token.names ts = names ∧ .unary .negate ∉ ts

namespace Token.Lists

variable {s t : List Char} {ms ns : List String}

theorem quoteName (name : String) : Lists (quoteName name).toList [name] :=
  ⟨[.name name], lex_quoteName name, rfl, by simp⟩

/-- A keyword with a blank behind it, or a comma. -/
theorem after {t : Token} (hs : Lexer.idle.scan s = some ([t], .idle)) (hname : t.name? = none)
    (hminus : t ≠ .unary .negate) {u : List Char} (hu : Lists u ns) : Lists (s ++ u) ns := by
  obtain ⟨us, hlex, rfl, hus⟩ := hu
  refine ⟨[t] ++ us, lex_append_of_settled hs hlex, ?_, ?_⟩
  · simp [names, hname]
  · simp [hus, hminus.symm]

theorem append_break {c : Char} (hs : Lists s ms) (hc : Lexer.isBreak c = true)
    (ht : Lists (c :: t) ns) : Lists (s ++ c :: t) (ms ++ ns) := by
  obtain ⟨ts, hts, rfl, hminus⟩ := hs
  obtain ⟨us, hus, rfl, hminus'⟩ := ht
  refine ⟨ts ++ us, lex_append_of_break hts hc hus, names_append ts us, ?_⟩
  simp [hminus, hminus']

theorem intercalate :
    ∀ names : List String,
      Lists ([',', ' '].intercalate (names.map fun n => (EntityQuery.quoteName n).toList)) names
  | [] => ⟨[], rfl, rfl, by simp⟩
  | [n] => by
    rw [List.map_singleton, List.intercalate_singleton]
    exact quoteName n
  | n :: m :: rest => by
    have hcomma : Lexer.idle.scan [',', ' '] = some ([.comma], .idle) := rfl
    have hrest := (intercalate (m :: rest)).after hcomma rfl (by simp)
    rw [List.map_cons, List.map_cons, List.intercalate_cons_cons, List.append_assoc]
    exact (quoteName n).append_break rfl hrest

end Token.Lists

namespace Shape

/-- The attributes that are selected by name. -/
def selectedNames (shape : Shape) : List String :=
  if shape.projection.any (fun entry => entry.2.isRow) || shape.readAttributes.isEmpty then []
  else firstOccurrences shape.readAttributes

/-- The names that a statement mentions: the selected attributes, the table, and the attributes of
    the condition. -/
def mentionedNames (shape : Shape) : List String :=
  shape.selectedNames ++ shape.source.table :: shape.filter.toList.flatMap Expr.attributeNames

theorem lists_selectList (shape : Shape) :
    Token.Lists shape.selectList.toList shape.selectedNames := by
  unfold selectList selectedNames
  split
  · exact ⟨[.star], rfl, rfl, by simp⟩
  · have hlists := Token.Lists.intercalate (firstOccurrences shape.readAttributes)
    rw [String.toList_intercalate, List.map_map]
    exact hlists

/-- What a statement selects and from where, whatever the names hold. -/
theorem lists_head (shape : Shape) :
    Token.Lists ("SELECT " ++ shape.selectList ++ " FROM " ++
      quoteName shape.source.table).toList (shape.selectedNames ++ [shape.source.table]) := by
  have hselect : Lexer.idle.scan "SELECT ".toList = some ([.word "SELECT"], .idle) := rfl
  have hfrom : Lexer.idle.scan (' ' :: "FROM ".toList) = some ([.word "FROM"], .idle) := rfl
  have htable : Token.Lists (' ' :: ("FROM ".toList ++ (quoteName shape.source.table).toList))
      [shape.source.table] := (Token.Lists.quoteName _).after hfrom rfl (by simp)
  have hlist := (shape.lists_selectList.append_break rfl htable).after hselect rfl (by simp)
  simpa [String.toList_append] using hlist

end Shape

/-! ## 4. Chains -/

namespace Query.Renderable

variable {model : Model} {root : Entity} {q : Query}

/-- The statement of a query has tokens, with the names that it mentions, and two dashes only for a
    minus before a minus in its condition. -/
theorem lex_statement (h : q.Renderable model root) :
    ∃ s ts, q.shape.statement = .ok s ∧ Token.lex s.text.toList = some ts ∧
      Token.names ts = q.shape.mentionedNames ∧
      (DashesOutside s.text.toList ↔
        ∃ e, q.shape.filter = some e ∧ e.skeleton.DoublesMinus) := by
  obtain ⟨head, hhead, hnames, hminus⟩ := q.shape.lists_head
  have hdashes : ¬ DashesOutside ("SELECT " ++ q.shape.selectList ++ " FROM " ++
      quoteName q.shape.source.table).toList :=
    fun ho => hminus (Token.negate_of_occurs hhead ho)
  unfold Shape.mentionedNames
  cases hf : q.shape.filter with
  | none =>
    obtain ⟨s, hs, htext⟩ := h.statement_of_no_filter hf
    refine ⟨s, head, hs, htext ▸ hhead, hnames, ?_⟩
    rw [htext]
    exact iff_of_false hdashes (fun ⟨_, he, _⟩ => by cases he)
  | some e =>
    obtain ⟨condition, s, hcondition, hs, htext, _⟩ := h.statement_of_filter hf
    have hlex := Expr.lex_render (h.condition e hf) hcondition
    have hwhere : Lexer.idle.scan (' ' :: "WHERE ".toList) = some ([.word "WHERE"], .idle) := rfl
    have hknown := Expr.known_skeleton (Expr.isTextFunction_of_isScalar (h.condition e hf))
    have hlist : s.text.toList = ("SELECT " ++ q.shape.selectList ++ " FROM " ++
        quoteName q.shape.source.table).toList ++ ' ' :: ("WHERE ".toList ++ condition.text.toList) := by
      rw [htext]
      simp [String.toList_append]
    have hcut := Token.lex_append_of_break hhead rfl (Token.lex_append_of_settled hwhere hlex)
    refine ⟨s, _, hs, hlist ▸ hcut, ?_, ?_⟩
    · rw [Token.names_append, hnames, Token.names_append, Expr.names_tokens]
      simp [Token.names, Token.name?]
    · have hplain := @dashes_plain_append " WHERE ".toList condition.text.toList (by decide)
        (by decide)
      rw [hlist, dashes_append_cons (Token.closed_of_lex hhead) (by decide)]
      refine (or_iff_right hdashes).trans (hplain.trans ?_)
      rw [Expr.toList_text_render hcondition, Skeleton.dashes_spelling hknown]
      simp

end Query.Renderable

namespace Model

/-- **Outside names, a statement is safe but for a minus before a minus.** Every name that the
    statement of a chain mentions is one token, whatever it holds. Outside double quotes there is no
    beginning of a block comment, no single quote and no semicolon; and the beginning of a line
    comment stands there exactly if the condition has a minus directly before a minus. -/
theorem statements_are_safe_but_for_minus (model : Model) (chain : Chain) (q : Query)
    (hrun : model.context.run chain = .ok q) :
    ∃ s ts, model.context.statement chain = .ok s ∧ Token.lex s.text.toList = some ts ∧
      Token.names ts = q.shape.mentionedNames ∧
      (∀ word ∈ ["/*", "'", ";"], ¬ OccursOutside word.toList s.text.toList) ∧
      (OccursOutside "--".toList s.text.toList ↔
        ∃ e, q.shape.filter = some e ∧ e.skeleton.DoublesMinus) := by
  obtain ⟨root, hq⟩ := Query.Renderable.of_run hrun
  obtain ⟨s, ts, hs, hlex, hnames, hdashes⟩ := hq.lex_statement
  refine ⟨s, ts, Context.statement_of_run hrun hs, hlex, hnames, fun word hword ho => ?_, hdashes⟩
  simp only [List.mem_cons, List.not_mem_nil, or_false] at hword
  rcases hword with rfl | rfl | rfl
  · cases Token.start_of_occurs hlex ho (by decide)
  · cases Token.start_of_occurs hlex ho (by decide)
  · cases Token.start_of_occurs hlex ho (by decide)

/-- People in a table with a semicolon and dashes in its name, and an attribute with quotes in
    its. -/
def hostile : Model where
  entities := [{ name := "Person", table := some "people\"; --"
                 properties := [{ name := "Age", type := .int32, storedAs := some "age\"'--" }] }]

/-- A minus alone is safe, beside names with quotes, dashes and a semicolon. -/
theorem statements_are_safe_but_for_minus_of_hostile :
    ∃ chain q s ts, Chain.parse "Person.Where(p => -p.Age < 1)" = .ok chain ∧
      hostile.context.run chain = .ok q ∧ hostile.context.statement chain = .ok s ∧
      Token.lex s.text.toList = some ts ∧ Token.names ts = q.shape.mentionedNames ∧
      q.shape.filter.toList.flatMap Expr.attributeNames = ["age\"'--"] ∧
      ¬ OccursOutside ";".toList s.text.toList ∧ ¬ OccursOutside "--".toList s.text.toList := by
  have hskeleton : (hostile.conditionOf? "Person.Where(p => -p.Age < 1)").map Expr.skeleton =
      some (.binary .less (.unary .negate (.name "age\"'--")) .placeholder) := by
    decide +kernel
  obtain ⟨e, he, hskeleton⟩ := Option.map_eq_some_iff.mp hskeleton
  obtain ⟨chain, q, hparse, hrun, hfilter⟩ := exists_of_conditionOf? he
  obtain ⟨s, ts, hs, hlex, hnames, hsafe, hdashes⟩ :=
    statements_are_safe_but_for_minus hostile chain q hrun
  have hattributes : q.shape.filter.toList.flatMap Expr.attributeNames = ["age\"'--"] := by
    have htokens := Expr.names_tokens e false
    rw [hskeleton] at htokens
    rw [hfilter, Option.toList_some, List.flatMap_singleton]
    exact htokens.symm
  refine ⟨chain, q, s, ts, hparse, hrun, hs, hlex, hnames, hattributes, hsafe ";" (by simp), ?_⟩
  rw [hdashes, hfilter]
  rintro ⟨d, hd, hdoubles⟩
  cases hd
  rw [hskeleton] at hdoubles
  cases hdoubles with
  | left _ _ h =>
    cases h with
    | unary _ h => cases h
  | right _ _ h => cases h

/-- **A minus before a minus begins a comment**: the condition of a text that can be read and has a
    query is left out from there on. -/
theorem minus_before_minus_begins_comment :
    ∃ chain q s, Chain.parse "Person.Where(p => --p.Age == 1)" = .ok chain ∧
      members.context.run chain = .ok q ∧ members.context.statement chain = .ok s ∧
      OccursOutside "--".toList s.text.toList := by
  have hskeleton : (members.conditionOf? "Person.Where(p => --p.Age == 1)").map Expr.skeleton =
      some (.binary .equal (.unary .negate (.unary .negate (.name "age"))) .placeholder) := by
    decide +kernel
  obtain ⟨e, he, hskeleton⟩ := Option.map_eq_some_iff.mp hskeleton
  obtain ⟨chain, q, hparse, hrun, hfilter⟩ := exists_of_conditionOf? he
  obtain ⟨root, hq⟩ := Query.Renderable.of_run hrun
  obtain ⟨s, _, hs, _, _, hdashes⟩ := hq.lex_statement
  refine ⟨chain, q, s, hparse, hrun, Context.statement_of_run hrun hs, hdashes.mpr ⟨e, hfilter, ?_⟩⟩
  rw [hskeleton]
  exact .left .equal _ (.here _)

end Model

end EntityQuery
