import EntityQuery.Proofs.Skeletons
import EntityQuery.Proofs.Tokens

/-!
The text of an expression shows its skeleton.

An operand is a row of operators in front of something that closes itself: a name, a keyword, a
call, or an operation in parentheses. No operand is the beginning of another, so a text can be taken
apart in one way only.

* `Skeleton.tokens` -- the tokens of a skeleton;
* `Skeleton.lex_spelling` -- **its spelling has these tokens**, whatever the names in it hold;
* `Skeleton.selfDelimiting` -- **no skeleton's tokens are the beginning of another's**;
* `Expr.texts_show_skeletons` -- expressions have one text exactly if they have one skeleton.
-/
namespace EntityQuery

namespace Skeleton

/-! ## 1. The tokens of a skeleton -/

/-- The tokens of a test for null after its operand. -/
def testTokens (negated : Bool) : List Token :=
  if negated then [.is, .unary .not, .null] else [.is, .null]

mutual
/-- The tokens of a skeleton, which stands inside an expression or by itself. -/
def tokens (nested : Bool) : Skeleton → List Token
  | .null => [.null]
  | .placeholder => [.placeholder]
  | .name n => [.name n]
  | .unary op operand => .unary op :: tokens true operand
  | .binary op left right =>
    enclosed .opening .closing nested (tokens true left ++ .binary op :: tokens true right)
  | .nullTest negated operand =>
    enclosed .opening .closing nested (tokens true operand ++ testTokens negated)
  | .call function arguments => .word function :: .opening :: argumentTokens arguments

/-- The tokens of arguments up to the closing parenthesis. -/
def argumentTokens : List Skeleton → List Token
  | [] => [.closing]
  | s :: rest => tokens false s ++ furtherTokens rest

/-- The tokens of the arguments after the first. -/
def furtherTokens : List Skeleton → List Token
  | [] => [.closing]
  | s :: rest => .comma :: (tokens false s ++ furtherTokens rest)
end

theorem tokens_binary (op : Expr.BinaryOp) (left right : Skeleton) :
    (Skeleton.binary op left right).tokens false =
      left.tokens true ++ .binary op :: right.tokens true := rfl

theorem tokens_nullTest (negated : Bool) (operand : Skeleton) :
    (Skeleton.nullTest negated operand).tokens false =
      operand.tokens true ++ testTokens negated := rfl

/-! ## 2. From the spelling to the tokens -/

theorem lex_enclosed {cs : List Char} {ts : List Token} (h : Token.lex cs = some ts)
    (nested : Bool) :
    Token.lex (enclosed '(' ')' nested cs) = some (enclosed .opening .closing nested ts) := by
  cases nested with
  | false => exact h
  | true =>
    have hopen : Lexer.idle.scan ['('] = some ([.opening], .idle) := rfl
    have hclose : Token.lex [')'] = some [.closing] := rfl
    exact Token.lex_append_of_settled hopen (Token.lex_append_of_break h rfl hclose)

/-- An operator leaves nothing begun, since a blank follows it or it is a minus. -/
theorem scan_lead (op : Expr.UnaryOp) :
    Lexer.idle.scan op.lead.toList = some ([.unary op], .idle) := by
  cases op <;> rfl

theorem scan_token (op : Expr.BinaryOp) :
    Lexer.idle.scan (' ' :: (op.token.toList ++ [' '])) = some ([.binary op], .idle) := by
  cases op <;> rfl

theorem lex_testSpelling (negated : Bool) :
    Token.lex (testSpelling negated) = some (testTokens negated) := by
  cases negated <;> rfl

theorem scan_function {function : String} (h : IsTextFunction function) :
    Lexer.idle.scan (function.toList ++ ['(']) = some ([.word function, .opening], .idle) := by
  rcases h with rfl | rfl
  · rfl
  · rfl

theorem lex_arguments :
    ∀ {ss : List Skeleton}, (∀ s ∈ ss, Token.lex (s.spelling false) = some (s.tokens false)) →
      Token.lex ([',', ' '].intercalate (spellings ss) ++ [')']) = some (argumentTokens ss)
  | [], _ => rfl
  | [s], h => by
    have hclose : Token.lex [')'] = some [.closing] := rfl
    rw [spellings, spellings, List.intercalate_singleton]
    exact Token.lex_append_of_break (h s List.mem_cons_self) rfl hclose
  | s :: t :: rest, h => by
    have hrest := lex_arguments fun u hu => h u (List.mem_cons_of_mem s hu)
    have hcomma : Lexer.idle.scan [',', ' '] = some ([.comma], .idle) := rfl
    have htail := Token.lex_append_of_settled hcomma hrest
    rw [spellings, spellings, List.intercalate_cons_cons, List.append_assoc, List.append_assoc]
    exact Token.lex_append_of_break (h s List.mem_cons_self) rfl htail

/-- **The spelling of a skeleton has its tokens.** -/
theorem lex_spelling {s : Skeleton} (h : s.Known) (nested : Bool) :
    Token.lex (s.spelling nested) = some (s.tokens nested) := by
  induction h generalizing nested with
  | null => rfl
  | placeholder => rfl
  | name n => exact Token.lex_quoteName n
  | unary op _ ih => exact Token.lex_append_of_settled (scan_lead op) (ih true)
  | @binary op left right _ _ ihl ihr =>
    have hright := Token.lex_append_of_settled (scan_token op) (ihr true)
    rw [List.cons_append, List.append_assoc] at hright
    exact lex_enclosed (Token.lex_append_of_break (ihl true) rfl hright) nested
  | @nullTest negated operand _ ih =>
    obtain ⟨cs, hcs⟩ : ∃ cs, testSpelling negated = ' ' :: cs := by
      cases negated <;> exact ⟨_, rfl⟩
    have htest := lex_testSpelling negated
    rw [spelling, tokens]
    rw [hcs] at htest ⊢
    exact lex_enclosed (Token.lex_append_of_break (ih true) rfl htest) nested
  | @call function hf arguments _ ih =>
    have hargs := Token.lex_append_of_settled (scan_function hf)
      (lex_arguments fun s hs => ih s hs false)
    rw [List.append_assoc] at hargs
    exact hargs

/-! ## 3. From the tokens to the skeleton -/

/-- What may follow a skeleton that stands by itself: nothing, or the end of an argument or of an
    operation in parentheses. -/
def Stops (r : List Token) : Prop := ∀ t ∈ r.head?, t = .closing ∨ t = .comma

theorem stops_closing (r : List Token) : Stops (.closing :: r) := by
  intro t ht
  cases ht
  exact Or.inl rfl

theorem stops_further (ss : List Skeleton) (r : List Token) : Stops (furtherTokens ss ++ r) := by
  cases ss with
  | nil => exact stops_closing r
  | cons s ss =>
    intro t ht
    cases ht
    exact Or.inr rfl

theorem Stops.ne_binary {op : Expr.BinaryOp} {ts : List Token} (h : Stops (.binary op :: ts)) :
    False := by
  rcases h _ rfl with h | h <;> cases h

theorem Stops.ne_test {negated : Bool} {ts : List Token} (h : Stops (testTokens negated ++ ts)) :
    False := by
  cases negated <;> rcases h _ rfl with h | h <;> cases h

/-- By itself a skeleton is an operand, or an operand with an operator or a test behind it. -/
theorem tokens_cases (s : Skeleton) :
    s.tokens false = s.tokens true ∨ (∃ op left right, s = .binary op left right) ∨
      ∃ negated operand, s = .nullTest negated operand := by
  cases s with
  | binary op left right => exact Or.inr (Or.inl ⟨op, left, right, rfl⟩)
  | nullTest negated operand => exact Or.inr (Or.inr ⟨negated, operand, rfl⟩)
  | _ => exact Or.inl (by simp only [tokens])

/-- The tokens of a skeleton, and what follows them, belong to no other skeleton. -/
structure SelfDelimiting (s : Skeleton) : Prop where
  inside : ∀ {t : Skeleton} {r u : List Token},
    s.tokens true ++ r = t.tokens true ++ u → s = t ∧ r = u
  alone : ∀ {t : Skeleton} {r u : List Token}, Stops r → Stops u →
    s.tokens false ++ r = t.tokens false ++ u → s = t ∧ r = u

/-- An operand that belongs to no other inside an expression belongs to no other by itself. -/
theorem SelfDelimiting.of_operand {s : Skeleton} (hs : s.tokens false = s.tokens true)
    (inside : ∀ {t : Skeleton} {r u : List Token},
      s.tokens true ++ r = t.tokens true ++ u → s = t ∧ r = u) : s.SelfDelimiting where
  inside := inside
  alone := by
    intro t r u hr hu h
    rw [hs] at h
    rcases t.tokens_cases with ht | ⟨op, left, right, rfl⟩ | ⟨negated, operand, rfl⟩
    · rw [ht] at h
      exact inside h
    · rw [tokens_binary, List.append_assoc] at h
      obtain ⟨_, rfl⟩ := inside h
      exact hr.ne_binary.elim
    · rw [tokens_nullTest, List.append_assoc] at h
      obtain ⟨_, rfl⟩ := inside h
      exact hr.ne_test.elim

/-- An operation in parentheses that belongs to no other by itself belongs to no other inside. -/
theorem inside_of_alone {s t : Skeleton} {r u : List Token}
    (alone : ∀ {t : Skeleton} {r u : List Token}, Stops r → Stops u →
      s.tokens false ++ r = t.tokens false ++ u → s = t ∧ r = u)
    (hs : s.tokens true = .opening :: (s.tokens false ++ [.closing]))
    (h : s.tokens true ++ r = t.tokens true ++ u) : s = t ∧ r = u := by
  have ht : t.tokens true = .opening :: (t.tokens false ++ [.closing]) := by
    rw [hs] at h
    cases t with
    | binary op left right => rfl
    | nullTest negated operand => rfl
    | _ => simp [tokens] at h
  rw [hs, ht] at h
  simp only [List.cons_append, List.append_assoc, List.nil_append, List.cons.injEq, true_and] at h
  obtain ⟨rfl, hrest⟩ := alone (stops_closing r) (stops_closing u) h
  exact ⟨rfl, (List.cons.inj hrest).2⟩

theorem SelfDelimiting.binary (op : Expr.BinaryOp) {left right : Skeleton}
    (hl : left.SelfDelimiting) (hr : right.SelfDelimiting) :
    (Skeleton.binary op left right).SelfDelimiting := by
  have alone : ∀ {t : Skeleton} {r u : List Token}, Stops r → Stops u →
      (Skeleton.binary op left right).tokens false ++ r = t.tokens false ++ u →
      .binary op left right = t ∧ r = u := by
    intro t r u _ hu h
    rw [tokens_binary, List.append_assoc] at h
    rcases t.tokens_cases with ht | ⟨op', left', right', rfl⟩ | ⟨negated, operand, rfl⟩
    · rw [ht] at h
      obtain ⟨_, rfl⟩ := hl.inside h
      exact hu.ne_binary.elim
    · rw [tokens_binary, List.append_assoc] at h
      obtain ⟨rfl, hrest⟩ := hl.inside h
      simp only [List.cons_append, List.cons.injEq, Token.binary.injEq] at hrest
      obtain ⟨rfl, hrest⟩ := hrest
      obtain ⟨rfl, rfl⟩ := hr.inside hrest
      exact ⟨rfl, rfl⟩
    · rw [tokens_nullTest, List.append_assoc] at h
      obtain ⟨_, hrest⟩ := hl.inside h
      cases negated <;> cases hrest
  exact ⟨fun h => inside_of_alone alone rfl h, alone⟩

theorem SelfDelimiting.nullTest (negated : Bool) {operand : Skeleton}
    (ho : operand.SelfDelimiting) : (Skeleton.nullTest negated operand).SelfDelimiting := by
  have alone : ∀ {t : Skeleton} {r u : List Token}, Stops r → Stops u →
      (Skeleton.nullTest negated operand).tokens false ++ r = t.tokens false ++ u →
      .nullTest negated operand = t ∧ r = u := by
    intro t r u _ hu h
    rw [tokens_nullTest, List.append_assoc] at h
    rcases t.tokens_cases with ht | ⟨op, left, right, rfl⟩ | ⟨negated', operand', rfl⟩
    · rw [ht] at h
      obtain ⟨_, rfl⟩ := ho.inside h
      exact hu.ne_test.elim
    · rw [tokens_binary, List.append_assoc] at h
      obtain ⟨_, hrest⟩ := ho.inside h
      cases negated <;> cases hrest
    · rw [tokens_nullTest, List.append_assoc] at h
      obtain ⟨rfl, hrest⟩ := ho.inside h
      -- the two tests differ in their second token
      cases negated <;> cases negated' <;> cases hrest
      · exact ⟨rfl, rfl⟩
      · exact ⟨rfl, rfl⟩
  exact ⟨fun h => inside_of_alone alone rfl h, alone⟩

theorem furtherTokens_inj :
    ∀ {ss ts : List Skeleton}, (∀ s ∈ ss, s.SelfDelimiting) → ∀ {r u : List Token},
      furtherTokens ss ++ r = furtherTokens ts ++ u → ss = ts ∧ r = u
  | [], [], _, _, _, h => ⟨rfl, (List.cons.inj h).2⟩
  | [], _ :: _, _, _, _, h => by simp [furtherTokens] at h
  | _ :: _, [], _, _, _, h => by simp [furtherTokens] at h
  | s :: ss, t :: ts, hss, r, u, h => by
    simp only [furtherTokens, List.cons_append, List.append_assoc, List.cons.injEq, true_and] at h
    obtain ⟨rfl, hrest⟩ :=
      (hss s List.mem_cons_self).alone (stops_further ss r) (stops_further ts u) h
    obtain ⟨rfl, rfl⟩ := furtherTokens_inj (fun d hd => hss d (List.mem_cons_of_mem s hd)) hrest
    exact ⟨rfl, rfl⟩

/-- A skeleton does not begin like the end of a list of arguments. -/
theorem tokens_ne_closing (s : Skeleton) (nested : Bool) (r u : List Token) :
    s.tokens nested ++ r ≠ .closing :: u := by
  induction s generalizing nested r u with
  | binary op left right ihl _ =>
    cases nested with
    | true => simp [tokens, enclosed]
    | false =>
      rw [tokens_binary, List.append_assoc]
      exact ihl true _ u
  | nullTest negated operand ih =>
    cases nested with
    | true => simp [tokens, enclosed]
    | false =>
      rw [tokens_nullTest, List.append_assoc]
      exact ih true _ u
  | _ => simp [tokens]

theorem argumentTokens_inj {ss ts : List Skeleton} (hss : ∀ s ∈ ss, s.SelfDelimiting)
    {r u : List Token} (h : argumentTokens ss ++ r = argumentTokens ts ++ u) : ss = ts ∧ r = u := by
  match ss, ts, h with
  | [], [], h => exact ⟨rfl, (List.cons.inj h).2⟩
  | [], t :: ts, h =>
    rw [argumentTokens, argumentTokens, List.append_assoc] at h
    exact absurd h.symm (tokens_ne_closing t false _ _)
  | s :: ss, [], h =>
    rw [argumentTokens, argumentTokens, List.append_assoc] at h
    exact absurd h (tokens_ne_closing s false _ _)
  | s :: ss, t :: ts, h =>
    rw [argumentTokens, argumentTokens, List.append_assoc, List.append_assoc] at h
    obtain ⟨rfl, hrest⟩ :=
      (hss s List.mem_cons_self).alone (stops_further ss r) (stops_further ts u) h
    obtain ⟨rfl, rfl⟩ := furtherTokens_inj (fun d hd => hss d (List.mem_cons_of_mem s hd)) hrest
    exact ⟨rfl, rfl⟩

/-- **No skeleton's tokens are the beginning of another's.** -/
theorem selfDelimiting (s : Skeleton) : s.SelfDelimiting := by
  induction s with
  | null =>
    refine .of_operand rfl fun {t r u} h => ?_
    cases t with
    | null => exact ⟨rfl, (List.cons.inj h).2⟩
    | _ => simp [tokens, enclosed] at h
  | placeholder =>
    refine .of_operand rfl fun {t r u} h => ?_
    cases t with
    | placeholder => exact ⟨rfl, (List.cons.inj h).2⟩
    | _ => simp [tokens, enclosed] at h
  | name n =>
    refine .of_operand rfl fun {t r u} h => ?_
    cases t with
    | name n' =>
      simp only [tokens, List.cons_append, List.nil_append, List.cons.injEq, Token.name.injEq] at h
      obtain ⟨rfl, rfl⟩ := h
      exact ⟨rfl, rfl⟩
    | _ => simp [tokens, enclosed] at h
  | unary op operand ih =>
    refine .of_operand rfl fun {t r u} h => ?_
    cases t with
    | unary op' operand' =>
      simp only [tokens, List.cons_append, List.cons.injEq, Token.unary.injEq] at h
      obtain ⟨rfl, h⟩ := h
      obtain ⟨rfl, rfl⟩ := ih.inside h
      exact ⟨rfl, rfl⟩
    | _ => simp [tokens, enclosed] at h
  | binary op left right ihl ihr => exact .binary op ihl ihr
  | nullTest negated operand ih => exact .nullTest negated ih
  | call function arguments ih =>
    refine .of_operand rfl fun {t r u} h => ?_
    cases t with
    | call function' arguments' =>
      simp only [tokens, List.cons_append, List.cons.injEq, Token.word.injEq, true_and] at h
      obtain ⟨rfl, h⟩ := h
      obtain ⟨rfl, rfl⟩ := argumentTokens_inj ih h
      exact ⟨rfl, rfl⟩
    | _ => simp [tokens, enclosed] at h

theorem tokens_inj {s t : Skeleton} : s.tokens false = t.tokens false ↔ s = t := by
  constructor
  · intro h
    have hstops : Stops [] := fun _ hnone => absurd hnone (by simp)
    exact (s.selfDelimiting.alone hstops hstops (congrArg (· ++ []) h)).1
  · intro h
    rw [h]

/-- Skeletons are compared by their tokens. -/
instance : DecidableEq Skeleton := fun _ _ => decidable_of_iff _ tokens_inj

/-- Skeletons with known functions are spelled alike only if they are the same. -/
theorem eq_of_spelling_eq {s t : Skeleton} (hs : s.Known) (ht : t.Known)
    (h : s.spelling false = t.spelling false) : s = t := by
  have hlex := lex_spelling hs false
  rw [h, lex_spelling ht false] at hlex
  exact tokens_inj.mp (Option.some.inj hlex).symm

end Skeleton

/-! ## 4. Expressions -/

namespace Expr

/-- The text of a scalar expression has the tokens of its skeleton. -/
theorem lex_render {e : Expr} (h : e.isScalar = true) {s : Statement}
    (hs : e.render false = .ok s) : Token.lex s.text.toList = some (e.skeleton.tokens false) := by
  rw [toList_text_render hs]
  exact Skeleton.lex_spelling (known_skeleton (isTextFunction_of_isScalar h)) false

/-- **The text of an expression shows its skeleton.** Of two expressions without whole rows, whose
    functions are the two on texts, both have a text, and the texts are the same exactly if the
    skeletons are. -/
theorem texts_show_skeletons (e d : Expr) (he : e.RowFree) (hd : d.RowFree)
    (hef : ∀ name ∈ e.functions, name = "BEGINS_WITH" ∨ name = "CONTAINS")
    (hdf : ∀ name ∈ d.functions, name = "BEGINS_WITH" ∨ name = "CONTAINS") :
    ∃ s t, e.render false = .ok s ∧ d.render false = .ok t ∧
      (s.text = t.text ↔ e.skeleton = d.skeleton) := by
  obtain ⟨s, hs⟩ := exists_render he false
  obtain ⟨t, ht⟩ := exists_render hd false
  refine ⟨s, t, hs, ht, ?_⟩
  rw [← String.toList_inj, toList_text_render hs, toList_text_render ht]
  constructor
  · intro h
    exact Skeleton.eq_of_spelling_eq (known_skeleton hef) (known_skeleton hdf) h
  · intro h
    rw [h]

/-- An attribute whose name holds a quote. -/
def quoteInName : Expr :=
  .attr (.of { name := "A", type := .string, storedAs := some "a\"b" }
    { entity := "Person", table := "people" })

/-- A comparison with a NOT before its left operand. -/
def notInside : Expr :=
  .ofBinary .equal (.ofUnary .not quoteInName) (.ofLiteral (.string "x") none)

/-- The same comparison without it, under a NOT. -/
def notOutside : Expr :=
  .ofUnary .not (.ofBinary .equal quoteInName (.ofLiteral (.string "x") none))

/-- The two have different skeletons, so they have different texts. -/
theorem texts_show_skeletons_of_not :
    ∃ s t, notInside.render false = .ok s ∧ notOutside.render false = .ok t ∧
      s.text ≠ t.text := by
  obtain ⟨s, t, hs, ht, htext⟩ := texts_show_skeletons notInside notOutside
    (rowFree_of_isScalar rfl) (rowFree_of_isScalar rfl) (by decide) (by decide)
  refine ⟨s, t, hs, ht, fun h => ?_⟩
  cases htext.mp h

end Expr

end EntityQuery
