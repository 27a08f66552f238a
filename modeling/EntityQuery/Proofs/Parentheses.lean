import EntityQuery.Proofs.Spelling.Levels
import EntityQuery.Proofs.WellFormed

/-!
Terms written with the fewest parentheses, in any layout.

* `Term.rank` -- how tightly a term holds together;
* `Term.placed` -- the tokens of a term where a text of some level is wanted: in parentheses exactly
  if the term is looser;
* `Term.Printed` -- the tokens of a term, all binary operators being left-associative. A cast may
  use each of the names of its type, and a literal each of its spellings;
* `Laid` -- tokens in a text, with gaps of any length before and between them;
* `Term.isExpression` -- the nodes of the terms that are printed here;
* `Lambda.printed_terms_read_back` -- **every such term can be printed, and each of its texts is
  read back as the term**.
-/
namespace EntityQuery

open Text

/-! ## 1. Tokens -/

/-- Tokens, each after any gap. -/
inductive Laid : List (List Char) → List Char → Prop where
  | nil : Laid [] []
  | cons {token s more : List Char} {tokens : List (List Char)} (h : Spaced token s)
      (hmore : Laid tokens more) : Laid (token :: tokens) (s ++ more)

theorem Laid.cons_inv {token s : List Char} {tokens : List (List Char)}
    (h : Laid (token :: tokens) s) :
    ∃ s₁ s₂, Spaced token s₁ ∧ Laid tokens s₂ ∧ s = s₁ ++ s₂ := by
  cases h with
  | cons h hmore => exact ⟨_, _, h, hmore, rfl⟩

theorem Laid.append_inv {tokens tokens' : List (List Char)} {s : List Char}
    (h : Laid (tokens ++ tokens') s) :
    ∃ s₁ s₂, Laid tokens s₁ ∧ Laid tokens' s₂ ∧ s = s₁ ++ s₂ := by
  induction tokens generalizing s with
  | nil => exact ⟨[], s, .nil, h, rfl⟩
  | cons token tokens ih =>
    obtain ⟨s₁, s₂, htoken, hmore, rfl⟩ := h.cons_inv
    obtain ⟨s₃, s₄, htokens, htokens', rfl⟩ := ih hmore
    exact ⟨s₁ ++ s₃, s₄, .cons htoken htokens, htokens', (List.append_assoc _ _ _).symm⟩

theorem Laid.single_inv {token s : List Char} (h : Laid [token] s) : Spaced token s := by
  obtain ⟨s₁, s₂, htoken, hmore, rfl⟩ := h.cons_inv
  cases hmore
  rwa [List.append_nil]

theorem Laid.of_gaps {pairs : List (List Char × List Char)}
    (h : ∀ p ∈ pairs, ∀ c ∈ p.1, isGap c = true) :
    Laid (pairs.map Prod.snd) (pairs.flatMap fun p => p.1 ++ p.2) := by
  induction pairs with
  | nil => exact .nil
  | cons p pairs ih =>
    have hp : Spaced p.2 (p.1 ++ p.2) := ⟨p.1, h p List.mem_cons_self, rfl⟩
    exact .cons hp (ih fun q hq => h q (List.mem_cons_of_mem p hq))

/-- The tokens of several terms with commas between them. -/
def withCommas : List (List (List Char)) → List (List Char)
  | [] => []
  | tokens :: rest => tokens ++ rest.flatMap fun more => [','] :: more

/-- The texts of several terms, each after a comma. -/
theorem Laid.further {args : List (Term × List (List Char))} {s : List Char}
    (h : Laid ((args.map Prod.snd).flatMap fun more => [','] :: more) s) :
    ∃ texts : List (Term × List Char), texts.map Prod.fst = args.map Prod.fst ∧
      Further (texts.map Prod.snd) s ∧ ∀ p ∈ texts, ∃ a ∈ args, a.1 = p.1 ∧ Laid a.2 p.2 := by
  induction args generalizing s with
  | nil =>
    cases h
    exact ⟨[], rfl, .nil, by simp⟩
  | cons a args ih =>
    have htokens : Laid ([','] :: (a.2 ++ (args.map Prod.snd).flatMap fun more => [','] :: more)) s := by
      simpa using h
    obtain ⟨comma, s', hcomma, hafter, rfl⟩ := htokens.cons_inv
    obtain ⟨s₁, s₂, ha, hmore, rfl⟩ := hafter.append_inv
    obtain ⟨texts, hterms, hfurther, hlaid⟩ := ih hmore
    refine ⟨(a.1, s₁) :: texts, by simp [hterms], .cons hcomma hfurther, fun p hp => ?_⟩
    rcases List.mem_cons.mp hp with rfl | hp
    · exact ⟨a, List.mem_cons_self, rfl, ha⟩
    · obtain ⟨a', ha', heq, hlaid'⟩ := hlaid p hp
      exact ⟨a', List.mem_cons_of_mem a ha', heq, hlaid'⟩

/-- The texts of several terms with commas between them. -/
theorem Laid.listed {args : List (Term × List (List Char))} {s : List Char}
    (h : Laid (withCommas (args.map Prod.snd)) s) :
    ∃ texts : List (Term × List Char), texts.map Prod.fst = args.map Prod.fst ∧
      Listed (texts.map Prod.snd) s ∧ ∀ p ∈ texts, ∃ a ∈ args, a.1 = p.1 ∧ Laid a.2 p.2 := by
  cases args with
  | nil =>
    cases h
    exact ⟨[], rfl, rfl, by simp⟩
  | cons a args =>
    obtain ⟨s₁, s₂, ha, hmore, rfl⟩ := Laid.append_inv h
    obtain ⟨texts, hterms, hfurther, hlaid⟩ := Laid.further hmore
    refine ⟨(a.1, s₁) :: texts, by simp [hterms], ⟨s₂, hfurther, rfl⟩, fun p hp => ?_⟩
    rcases List.mem_cons.mp hp with rfl | hp
    · exact ⟨a, List.mem_cons_self, rfl, ha⟩
    · obtain ⟨a', ha', heq, hlaid'⟩ := hlaid p hp
      exact ⟨a', List.mem_cons_of_mem a ha', heq, hlaid'⟩

/-! ## 2. Printing -/

namespace Term

/-- The level at which a term holds together: 0 to 6 for binary operators from `||` to `*`, 7 for
    operators before an operand, 8 for members and calls, 9 for all else. -/
def rank : Term → Nat
  | .binary op _ _ => op.level
  | .unary _ _ => 7
  | .member _ _ => 8
  | .call _ _ _ => 8
  | _ => 9

/-- The tokens of a term where a text of a level is wanted. -/
def placed (t : Term) (l : Nat) (tokens : List (List Char)) : List (List Char) :=
  if t.rank < l then ['('] :: (tokens ++ [[')']]) else tokens

/-- The tokens of a term, with parentheses where they are needed. The right operand of a binary
    operator is wanted tighter than the operator, the left one as tight. -/
inductive Printed : Term → List (List Char) → Prop where
  | literal {v : Literal} {token : List Char} (h : v.Spelled token) : Printed (.ofLiteral v) [token]
  | parameter (name : String) : Printed (.parameter name) [name.toList]
  | binary (op : BinaryOp) {left right : Term} {ts₁ ts₂ : List (List Char)}
      (hleft : Printed left ts₁) (hright : Printed right ts₂) :
      Printed (.binary op left right)
        (left.placed op.level ts₁ ++ op.symbol.toList :: right.placed (op.level + 1) ts₂)
  | not {t : Term} {ts : List (List Char)} (h : Printed t ts) :
      Printed (.unary .not t) (['!'] :: t.placed 7 ts)
  | negate {t : Term} {ts : List (List Char)} (h : Printed t ts) :
      Printed (.unary .negate t) (['-'] :: t.placed 7 ts)
  | plus {t : Term} {ts : List (List Char)} (h : Printed t ts) :
      Printed (.unary .plus t) (['+'] :: t.placed 7 ts)
  | convert {keyword : String} {type : ValueType} {t : Term} {ts : List (List Char)}
      (htype : ValueType.ofKeyword? keyword = some type) (h : Printed t ts) :
      Printed (.unary (.convert type) t) (['('] :: keyword.toList :: [')'] :: t.placed 7 ts)
  | member {t : Term} {ts : List (List Char)} (h : Printed t ts) (label : String) :
      Printed (.member t label) (t.placed 8 ts ++ [['.'], label.toList])
  | call {t : Term} {ts : List (List Char)} (h : Printed t ts) (label : String)
      {args : List (Term × List (List Char))} (hargs : ∀ a ∈ args, Printed a.1 a.2) :
      Printed (.call t ⟨none, label⟩ (args.map Prod.fst)) (t.placed 8 ts ++
        ['.'] :: label.toList :: ['('] :: (withCommas (args.map Prod.snd) ++ [[')']]))

end Term

/-- Truth values, numbers of the two integer types that are not negative, and texts. -/
def Literal.isBasic : Literal → Bool
  | .bool _ => true
  | .int32 n => 0 ≤ n.toInt
  | .int64 n => 0 ≤ n.toInt
  | .string _ => true
  | _ => false

/-- The operators before an operand that have a sign, and casts to types that have a keyword. -/
def UnaryOp.isBasic : UnaryOp → Bool
  | .not => true
  | .negate => true
  | .plus => true
  | .convert (.entity _) => false
  | .convert _ => true
  | _ => false

/-- A node of a term over one parameter: operators, members and calls on terms, over the parameter
    and literals. A minus is not before a number. -/
def Term.isExpression (x : String) : Term → Bool
  | .constant (some v) type => type = v.type && v.isBasic
  | .parameter name => name = x
  | .member _ label => isName label
  | .unary op operand => op.isBasic && !(op = .negate && operand.isNumber)
  | .binary _ _ _ => true
  | .call _ method _ => method.owner = none && isName method.name
  | _ => false

/-! ## 3. Every term can be printed -/

theorem Quoted.exists (quote : Char) (hquote : Reader.unescape quote = quote) (cs : List Char) :
    ∃ body, Quoted quote cs body := by
  induction cs with
  | nil => exact ⟨[], .nil⟩
  | cons c cs ih =>
    obtain ⟨body, hbody⟩ := ih
    by_cases hc : c = quote
    · subst hc
      have hescaped := Quoted.escaped c hbody
      rw [hquote] at hescaped
      exact ⟨_, hescaped⟩
    · by_cases hslash : c = '\\'
      · subst hslash
        exact ⟨_, .escaped '\\' hbody⟩
      · exact ⟨_, .plain hc hslash hbody⟩

theorem Literal.Spelled.exists {v : Literal} (h : v.isBasic = true) :
    ∃ token, v.Spelled token := by
  cases v with
  | bool b => exact ⟨_, .bool b⟩
  | int32 n =>
    obtain ⟨hlt, hself⟩ := int32_of_nonneg (of_decide_eq_true h)
    exact ⟨_, hself ▸ Spelled.int32 hlt⟩
  | int64 n =>
    obtain ⟨hlt, hself⟩ := int64_of_nonneg (of_decide_eq_true h)
    exact ⟨_, hself ▸ Spelled.int64 hlt⟩
  | string s =>
    obtain ⟨body, hbody⟩ := Quoted.exists '"' rfl s.toList
    have hspelled := Spelled.string hbody
    rw [String.ofList_toList] at hspelled
    exact ⟨_, hspelled⟩
  | _ => cases h

theorem ValueType.exists_keyword {type : ValueType} (h : (UnaryOp.convert type).isBasic = true) :
    ∃ keyword, ofKeyword? keyword = some type := by
  cases type with
  | bool => exact ⟨"bool", rfl⟩
  | int32 => exact ⟨"int", rfl⟩
  | int64 => exact ⟨"long", rfl⟩
  | double => exact ⟨"double", rfl⟩
  | decimal => exact ⟨"decimal", rfl⟩
  | string => exact ⟨"string", rfl⟩
  | char => exact ⟨"char", rfl⟩
  | dateTime => exact ⟨"DateTime", rfl⟩
  | object => exact ⟨"object", rfl⟩
  | entity _ => cases h

namespace Term

/-- **Every such term has a text.** -/
theorem Printed.exists {x : String} {t : Term} (h : t.every (isExpression x) = true) :
    ∃ ts, t.Printed ts := by
  induction t with
  | constant value type =>
    cases value with
    | none => cases h
    | some v =>
      simp only [every, isExpression, Bool.and_eq_true, decide_eq_true_eq] at h
      obtain ⟨rfl, hv⟩ := h
      obtain ⟨token, htoken⟩ := Literal.Spelled.exists hv
      exact ⟨_, .literal htoken⟩
  | parameter name => exact ⟨_, .parameter name⟩
  | member target label ih =>
    simp only [every, Bool.and_eq_true] at h
    obtain ⟨ts, hts⟩ := ih h.2
    exact ⟨_, .member hts label⟩
  | unary op operand ih =>
    simp only [every, isExpression, Bool.and_eq_true] at h
    obtain ⟨⟨hop, -⟩, hoperand⟩ := h
    obtain ⟨ts, hts⟩ := ih hoperand
    cases op with
    | not => exact ⟨_, .not hts⟩
    | negate => exact ⟨_, .negate hts⟩
    | plus => exact ⟨_, .plus hts⟩
    | convert type =>
      obtain ⟨keyword, htype⟩ := ValueType.exists_keyword hop
      exact ⟨_, .convert htype hts⟩
    | _ => cases hop
  | binary op left right ihleft ihright =>
    simp only [every, Bool.and_eq_true] at h
    obtain ⟨ts₁, hleft⟩ := ihleft h.1.2
    obtain ⟨ts₂, hright⟩ := ihright h.2
    exact ⟨_, .binary op hleft hright⟩
  | call receiver method arguments ihreceiver ihargs =>
    simp only [every, isExpression, Bool.and_eq_true, decide_eq_true_eq, everyIn_iff] at h
    obtain ⟨⟨⟨howner, hname⟩, hreceiver⟩, harguments⟩ := h
    obtain ⟨ts, hts⟩ := ihreceiver hreceiver
    have hlist : ∃ args : List (Term × List (List Char)), args.map Prod.fst = arguments ∧
        ∀ a ∈ args, Printed a.1 a.2 := by
      clear hts
      induction arguments with
      | nil => exact ⟨[], rfl, by simp⟩
      | cons t arguments ih =>
        obtain ⟨ts', hts'⟩ := ihargs t List.mem_cons_self (harguments t List.mem_cons_self)
        obtain ⟨args, hargs, hprinted⟩ := ih
          (fun u hu => ihargs u (List.mem_cons_of_mem t hu))
          (fun u hu => harguments u (List.mem_cons_of_mem t hu))
        refine ⟨(t, ts') :: args, by simp [hargs], fun a ha => ?_⟩
        rcases List.mem_cons.mp ha with rfl | ha
        · exact hts'
        · exact hprinted a ha
    obtain ⟨args, rfl, hargs⟩ := hlist
    obtain ⟨owner, label⟩ := method
    obtain rfl : owner = none := howner
    exact ⟨_, .call hts label hargs⟩
  | _ => cases h

/-! ## 4. What is printed is read -/

/-- Where a text of a level is wanted, the tokens of a term spell it at that level. -/
theorem spelled_placed {t : Term} {ts : List (List Char)} {l : Nat} (hl : l ≤ 8)
    (hrank : t.rank ≤ 9) (h : ∀ s, Laid ts s → Spelled t.rank t s) {s : List Char}
    (hs : Laid (t.placed l ts) s) : Spelled l t s := by
  unfold placed at hs
  split at hs
  · rename_i hlt
    obtain ⟨s₁, s', hopen, hrest, rfl⟩ := hs.cons_inv
    obtain ⟨s₂, s₃, hinner, hclose, rfl⟩ := hrest.append_inv
    have hbare : ∀ name, t ≠ .parameter name := by
      rintro name rfl
      have : 9 < l := hlt
      omega
    have hzero : Spelled 0 t s₂ := (h s₂ hinner).loosenTo (Nat.zero_le _) hrank
    exact (Spelled.parens hopen hzero hbare hclose.single_inv).loosenTo (by omega) (by omega)
  · rename_i hle
    exact (h s hs).loosenTo (by omega) hrank

theorem rank_le (t : Term) : t.rank ≤ 9 := by
  cases t with
  | binary op _ _ => exact Nat.le_trans (Nat.le_of_lt op.level_lt) (by decide)
  | _ => simp [rank]

/-- **The tokens of a term spell it, in any layout.** -/
theorem Printed.spelled {x : String} (hx : isName x = true) (hword : isKeyword x = false) {t : Term}
    {ts : List (List Char)} (h : t.Printed ts) (ht : t.every (isExpression x) = true) {s : List Char}
    (hs : Laid ts s) : Spelled t.rank t s := by
  induction h generalizing s with
  | literal hv => exact .literal hv hs.single_inv
  | parameter name =>
    obtain rfl : name = x := of_decide_eq_true ht
    exact .parameter hx hword hs.single_inv
  | @binary op left right ts₁ ts₂ _ _ ihleft ihright =>
    simp only [every, Bool.and_eq_true] at ht
    obtain ⟨s₁, s', hleft, hafter, rfl⟩ := hs.append_inv
    obtain ⟨s₂, s₃, hsign, hright, rfl⟩ := hafter.cons_inv
    have hlevel := op.level_lt
    have hl := spelled_placed (by omega) left.rank_le (fun _ => ihleft ht.1.2) hleft
    have hr := spelled_placed (by omega) right.rank_le (fun _ => ihright ht.2) hright
    exact .binary op hl hsign hr
  | @not t _ _ ih =>
    simp only [every, Bool.and_eq_true] at ht
    obtain ⟨s₁, s₂, hsign, hoperand, rfl⟩ := hs.cons_inv
    exact .not hsign (spelled_placed (by decide) t.rank_le (fun _ => ih ht.2) hoperand)
  | @negate t _ _ ih =>
    simp only [every, isExpression, Bool.and_eq_true] at ht
    obtain ⟨s₁, s₂, hsign, hoperand, rfl⟩ := hs.cons_inv
    have hnumber : t.isNumber = false := by simpa using ht.1.2
    have hspelled := Spelled.minus hsign
      (spelled_placed (by decide) t.rank_le (fun _ => ih ht.2) hoperand)
    rw [negated_of_not_isNumber hnumber] at hspelled
    exact hspelled
  | @plus t _ _ ih =>
    simp only [every, Bool.and_eq_true] at ht
    obtain ⟨s₁, s₂, hsign, hoperand, rfl⟩ := hs.cons_inv
    exact .plus hsign (spelled_placed (by decide) t.rank_le (fun _ => ih ht.2) hoperand)
  | @convert _ _ t _ htype _ ih =>
    simp only [every, Bool.and_eq_true] at ht
    obtain ⟨s₁, rest₁, hopen, hrest₁, rfl⟩ := hs.cons_inv
    obtain ⟨s₂, rest₂, hname, hrest₂, rfl⟩ := hrest₁.cons_inv
    obtain ⟨s₃, s₄, hclose, hoperand, rfl⟩ := hrest₂.cons_inv
    exact .cast htype hopen hname hclose
      (spelled_placed (by decide) t.rank_le (fun _ => ih ht.2) hoperand)
  | @member t _ _ label ih =>
    simp only [every, isExpression, Bool.and_eq_true] at ht
    obtain ⟨s₁, s', htarget, hafter, rfl⟩ := hs.append_inv
    obtain ⟨s₂, s₃, hpoint, hname, rfl⟩ := hafter.cons_inv
    have hspelled := spelled_placed (by decide) t.rank_le (fun _ => ih ht.2) htarget
    exact .member hspelled hpoint ht.1 hname.single_inv
  | @call t _ _ label args hargs ih ihargs =>
    simp only [every, isExpression, Bool.and_eq_true, everyIn_iff] at ht
    obtain ⟨⟨⟨-, hlabel⟩, htarget⟩, harguments⟩ := ht
    obtain ⟨s₁, rest₁, hreceiver, hrest₁, rfl⟩ := hs.append_inv
    obtain ⟨s₂, rest₂, hpoint, hrest₂, rfl⟩ := hrest₁.cons_inv
    obtain ⟨s₃, rest₃, hname, hrest₃, rfl⟩ := hrest₂.cons_inv
    obtain ⟨s₄, rest₄, hopen, hrest₄, rfl⟩ := hrest₃.cons_inv
    obtain ⟨s₅, s₆, hlist, hclose, rfl⟩ := hrest₄.append_inv
    obtain ⟨texts, hterms, hlisted, hlaid⟩ := hlist.listed
    have hspelled := spelled_placed (by decide) t.rank_le (fun _ => ih htarget) hreceiver
    have hitems : ∀ p ∈ texts, Spelled 0 p.1 p.2 := by
      intro p hp
      obtain ⟨a, ha, heq, hlaid'⟩ := hlaid p hp
      have hmem : a.1 ∈ args.map Prod.fst := List.mem_map_of_mem ha
      have hitem := ihargs a ha (harguments a.1 hmem) hlaid'
      rw [heq] at hitem
      exact hitem.loosenTo (Nat.zero_le _) p.1.rank_le
    rw [← hterms]
    exact .call hspelled hpoint hlabel hname hopen hitems hlisted hclose.single_inv

/-- Over the parameter alone every call is resolved. -/
theorem every_isResolved_of_isExpression {x : String} {t : Term}
    (h : t.every (isExpression x) = true) : t.every (isResolved x) = true := by
  induction t with
  | constant _ _ | parameter _ => rfl
  | member target label ih =>
    simp only [every, Bool.and_eq_true] at h ⊢
    exact ⟨rfl, ih h.2⟩
  | unary op operand ih =>
    simp only [every, Bool.and_eq_true] at h ⊢
    exact ⟨rfl, ih h.2⟩
  | binary op left right ihleft ihright =>
    simp only [every, Bool.and_eq_true] at h ⊢
    exact ⟨⟨rfl, ihleft h.1.2⟩, ihright h.2⟩
  | call receiver method arguments ihreceiver ihargs =>
    simp only [every, Bool.and_eq_true, everyIn_iff] at h ⊢
    refine ⟨⟨?_, ihreceiver h.1.2⟩, fun t ht => ihargs t ht (h.2 t ht)⟩
    cases receiver with
    | parameter name => exact h.1.2
    | _ => rfl
  | _ => cases h

end Term

/-! ## 5. Whole texts -/

namespace Lambda

/-- **Precedence, associativity and layout.** Every term over a parameter can be printed with
    parentheses where the levels of its operators need them, and however its tokens are laid out,
    the text is read as a lambda with exactly this term as its body. -/
theorem printed_terms_read_back {x : String} (hx : isName x = true) (hword : isKeyword x = false)
    {t : Term} (ht : t.every (Term.isExpression x) = true) :
    (∃ tokens, t.Printed tokens) ∧
      ∀ tokens s g, t.Printed tokens → Laid tokens s → (∀ c ∈ g, isGap c = true) →
        Lambda.read (x ++ " => " ++ String.ofList (s ++ g)) = .ok ⟨x, t⟩ := by
  refine ⟨Term.Printed.exists ht, fun tokens s g hprinted hlaid hg => ?_⟩
  have hspelled : Term.Spelled 0 t s :=
    (hprinted.spelled hx hword ht hlaid).loosenTo (Nat.zero_le _) t.rank_le
  have hread := Reader.lambda_of_spelled hx (.bare x.toList) (.blank ['=', '>'])
    hspelled.afterBlank (.of_gap hg 0)
  rw [Term.withOwners_of_isResolved (Term.every_isResolved_of_isExpression ht)] at hread
  have htext : (x ++ " => " ++ String.ofList (s ++ g)).toList =
      x.toList ++ ([' ', '=', '>'] ++ (' ' :: s ++ g)) := by simp
  exact Reader.readAll_of_gap (htext ▸ hread) hg

/-- A product less than a cast call: `-(x.Age - (1 - 2L)) * +x < (int)x.F("a\"b", true)`. -/
def product : Term :=
  .binary .less
    (.binary .multiply
      (.unary .negate (.binary .subtract (.member (.parameter "x") "Age")
        (.binary .subtract (.ofLiteral (.int32 1)) (.ofLiteral (.int64 2)))))
      (.unary .plus (.parameter "x")))
    (.unary (.convert .int32) (.call (.parameter "x") ⟨none, "F"⟩
      [.ofLiteral (.string "a\"b"), .ofLiteral (.bool true)]))

/-- Its tokens, each with the gap before it. -/
def productTokens : List (List Char × List Char) :=
  [("", "-"), ("", "("), ("", "x"), ("", "."), ("", "Age"), ("", "-"), (" ", "("), ("", "1"),
    ("\t", "-"), ("", "2L"), (" ", ")"), ("", ")"), ("\n", "*"), ("", "+"), ("", "x"), ("", "<"),
    ("", "("), ("", "Int32"), ("", ")"), ("", "x"), (" ", "."), ("\r\n", "F"), ("", "("),
    ("", "\"a\\\"b\""), ("", ","), (" ", "true"), ("", ")")].map
      fun p => (p.1.toList, p.2.toList)

theorem printed_terms_read_back_of_product :
    isName "x" = true ∧ isKeyword "x" = false ∧ product.every (Term.isExpression "x") = true ∧
      Lambda.read "x => -(x.Age- (1\t-2L ))\n*+x<(Int32)x .\r\nF(\"a\\\"b\", true)\t" =
        .ok ⟨"x", product⟩ := by
  have hone : Literal.Spelled (.int32 1) "1".toList := .int32 (n := 1) (by decide)
  have htwo : Literal.Spelled (.int64 2) "2L".toList := .int64 (n := 2) (by decide)
  have htext : Literal.Spelled (.string "a\"b") "\"a\\\"b\"".toList :=
    .string (.plain (by decide) (by decide) (.escaped '"' (.plain (by decide) (by decide) .nil)))
  have hnegated := Term.Printed.negate (.binary .subtract (.member (.parameter "x") "Age")
    (.binary .subtract (.literal hone) (.literal htwo)))
  have harguments : ∀ a ∈ [(Term.ofLiteral (.string "a\"b"), ["\"a\\\"b\"".toList]),
      (.ofLiteral (.bool true), ["true".toList])], Term.Printed a.1 a.2 := by
    intro a ha
    simp only [List.mem_cons, List.not_mem_nil, or_false] at ha
    rcases ha with rfl | rfl
    · exact .literal htext
    · exact .literal (.bool true)
  have htype : ValueType.ofKeyword? "Int32" = some .int32 := rfl
  have hcall := Term.Printed.convert htype (.call (.parameter "x") "F" harguments)
  have htokens := Term.Printed.binary .less
    (.binary .multiply hnegated (.plus (.parameter "x"))) hcall
  have hprinted : product.Printed (productTokens.map Prod.snd) := by
    refine Eq.subst (motive := product.Printed) ?_ htokens
    decide
  have hall : productTokens.all (fun p => p.1.all isGap) = true := by decide
  have hgaps : ∀ p ∈ productTokens, ∀ c ∈ p.1, isGap c = true := fun p hp =>
    List.all_eq_true.mp (List.all_eq_true.mp hall p hp)
  have hlayout : "x => -(x.Age- (1\t-2L ))\n*+x<(Int32)x .\r\nF(\"a\\\"b\", true)\t" =
      "x" ++ " => " ++ String.ofList ((productTokens.flatMap fun p => p.1 ++ p.2) ++ ['\t']) := by
    decide
  refine ⟨by decide, by decide, by decide, ?_⟩
  rw [hlayout]
  exact (printed_terms_read_back (by decide) (by decide) (by decide)).2 _ _ ['\t'] hprinted
    (.of_gaps hgaps) (List.forall_mem_singleton.mpr rfl)

end Lambda

end EntityQuery
