import EntityQuery.Proofs.Spelling.Terms

/-!
Terms are read as they are spelled.

* `Reader.readerAt` -- the reader of each level, from all binary operators down to atoms, at a depth
  of nesting; `Reader.stepAt` -- what it repeats;
* `Reader.Heard` -- a text of a level is read as its term by the reader of that level, and halfway
  through, where the reader may go on, the repetition has arrived at the term;
* `Term.Spelled.heard` -- **every text of a term is read as the term**, by induction on the
  spelling. Depth is no limit: a part of a text is shorter than the text;
* `Reader.term_of_spelled`, `Reader.lambda_of_spelled` -- so are texts of terms and lambdas.
-/
namespace EntityQuery

open Text

namespace Reader

/-! ## 1. Signs -/

/-- The binary operators of a level. -/
def signs (l : Nat) : List BinaryOp := levels.getD l []

/-- **The sign of an operator is read as the operator.** A longer sign of its level starts with the
    same character at most if an equals sign follows. -/
theorem sign_of_spaced (op : BinaryOp) {s : List Char} (h : Spaced op.symbol.toList s)
    {rest : List Char} (hrest : rest.head? ≠ some '=') :
    sign (signs op.level) (s ++ rest) = .ok op rest := by
  have hequals : stripChars? ['='] rest = none := by
    cases rest with
    | nil => rfl
    | cons c rest =>
      have hc : '=' ≠ c := by
        rintro rfl
        exact hrest rfl
      simp [stripChars?, hc]
  obtain ⟨c, cs, hsymbol, hgap⟩ : ∃ c cs, op.symbol.toList = c :: cs ∧ isGap c = false := by
    cases op <;> exact ⟨_, _, rfl, rfl⟩
  have hskip : skipGap (s ++ rest) = op.symbol.toList ++ rest := by
    rw [hsymbol] at h ⊢
    exact h.skipGap hgap rest
  cases op <;>
    simp [BinaryOp.symbol] at hskip <;>
    simp [signs, levels, BinaryOp.level, sign, symbol, BinaryOp.symbol, hskip, stripChars?, hequals]

theorem fails_sign {ops : List BinaryOp} {s : List Char}
    (h : ∀ op ∈ ops, next? s ≠ some (op.symbol.toList.headD ' ')) : Fails (sign ops) s := by
  induction ops with
  | nil => exact ⟨_, rfl⟩
  | cons op ops ih =>
    have hop : Fails (symbol op.symbol) s := by
      have hne := h op List.mem_cons_self
      cases op <;> exact fails_symbol rfl hne
    obtain ⟨fault, hfault⟩ := hop
    obtain ⟨fault', hfault'⟩ := ih fun op' hop' => h op' (List.mem_cons_of_mem op hop')
    exact ⟨fault', by simp only [sign, hfault, hfault']⟩

/-- What stands first in a text, without regard to gaps, is a gap or what the text starts with. -/
theorem head?_ne_of_next? {s rest : List Char} {c d : Char} (h : next? s = some c) (hne : c ≠ d)
    (hd : isGap d = false) : (s ++ rest).head? ≠ some d := by
  cases s with
  | nil => cases h
  | cons e s =>
    intro heq
    obtain rfl : e = d := by simpa using heq
    rw [next?, skipGap, List.dropWhile_cons_of_neg (by simp [hd])] at h
    exact hne (by simpa using h.symm)

theorem head?_ne_of_spelled {l : Nat} {t : Term} {s : List Char} (h : Term.Spelled l t s) {d : Char}
    (hd : isOpening 0 d = false) (hgap : isGap d = false) (rest : List Char) :
    (s ++ rest).head? ≠ some d := by
  obtain ⟨c, hc, hopening⟩ := h.next?
  refine head?_ne_of_next? hc ?_ hgap
  rintro rfl
  rw [isOpening_mono (Nat.zero_le l) hopening] at hd
  cases hd

/-! ## 2. The reader of a level -/

/-- An operator of a level and its right operand. -/
def binaryStep (ops : List BinaryOp) (operand : Reader Term) (left : Term) : Reader Term := do
  let op ← sign ops
  let right ← cut operand
  return .binary op left right

/-- The reader of a level at a depth of nesting. -/
def readerAt (n l : Nat) : Reader Term :=
  if l ≤ 7 then (levels.drop l).foldr binaryLevel (Grammar.nested (n + 1)).unary
  else if l = 8 then (Grammar.nested (n + 1)).access
  else atom (Grammar.nested n).term (Grammar.nested n).access

/-- What the reader of a level repeats, if it repeats something. -/
def stepAt (n l : Nat) : Term → Reader Term :=
  if l < 7 then binaryStep (signs l) (readerAt n (l + 1)) else accessStep (Grammar.nested n).term

/-- The levels on which something is repeated. -/
def Repeats (l : Nat) : Prop := l < 7 ∨ l = 8

theorem readerAt_of_repeats (n : Nat) {l : Nat} (hl : Repeats l) : readerAt n l = (do
    let first ← readerAt n (l + 1)
    iterate (stepAt n l) first) := by
  rcases hl with hl | rfl
  · have hcases : l = 0 ∨ l = 1 ∨ l = 2 ∨ l = 3 ∨ l = 4 ∨ l = 5 ∨ l = 6 := by omega
    rcases hcases with rfl | rfl | rfl | rfl | rfl | rfl | rfl <;> rfl
  · rfl

theorem stepAt_of_lt (n : Nat) {l : Nat} (hl : l < 7) :
    stepAt n l = binaryStep (signs l) (readerAt n (l + 1)) := if_pos hl

theorem fails_stepAt (n : Nat) {l : Nat} (hl : Repeats l) {rest : List Char} (h : Stops l rest)
    (t : Term) : Fails (stepAt n l t) rest := by
  rcases hl with hl | rfl
  · rw [stepAt_of_lt n hl]
    have hsigns : ∀ l < 7, ∀ op ∈ signs l, op.symbol.toList.headD ' ' ∈ continuations l := by
      decide
    exact (fails_sign fun op hop => h.next?_ne (hsigns l hl op hop)).bind _
  · exact (fails_symbol rfl (h.next?_ne (by decide))).bind _

/-- **A text of a level is read as a term.** Where the reader repeats something, it arrives at the
    term also if more of the same level follows. -/
structure Heard (n l : Nat) (t : Term) (s : List Char) : Prop where
  onwards : Repeats l → ∀ rest, Stops (l + 1) rest → ∃ first s',
    readerAt n (l + 1) (s ++ rest) = .ok first s' ∧ Arrives (stepAt n l) first s' t rest
  whole : ∀ rest, Stops l rest → readerAt n l (s ++ rest) = .ok t rest

theorem Heard.of_onwards {n l : Nat} {t : Term} {s : List Char} (hl : Repeats l)
    (h : ∀ rest, Stops (l + 1) rest → ∃ first s',
      readerAt n (l + 1) (s ++ rest) = .ok first s' ∧ Arrives (stepAt n l) first s' t rest) :
    Heard n l t s where
  onwards _ := h
  whole rest hrest := by
    have hlt : l < 9 := by rcases hl with hl | hl <;> omega
    obtain ⟨first, s', hfirst, harrives⟩ := h rest (hrest.succ hlt)
    rw [readerAt_of_repeats n hl, bind_of_ok hfirst]
    exact harrives.iterate (fails_stepAt n hl hrest t)

theorem Heard.of_whole {n l : Nat} {t : Term} {s : List Char} (hl : ¬ Repeats l)
    (h : ∀ rest, Stops l rest → readerAt n l (s ++ rest) = .ok t rest) : Heard n l t s where
  onwards hrepeats := absurd hrepeats hl
  whole := h

/-- One more step of the repetition of a level. -/
theorem Heard.step {n l : Nat} {t t' : Term} {s more : List Char} (hl : Repeats l)
    (h : Heard n l t s) (hmore : ∀ rest, Stops (l + 1) rest → Stops (l + 1) (more ++ rest) ∧
      stepAt n l t (more ++ rest) = .ok t' rest) (hlength : 0 < more.length) :
    Heard n l t' (s ++ more) := by
  refine .of_onwards hl fun rest hrest => ?_
  obtain ⟨hstops, hstep⟩ := hmore rest hrest
  obtain ⟨first, s', hfirst, harrives⟩ := h.onwards hl (more ++ rest) hstops
  rw [List.append_assoc]
  refine ⟨first, s', hfirst, harrives.trans (.single hstep ?_)⟩
  rw [List.length_append]
  omega

/-! ## 3. Operators before an operand -/

theorem signed_of_ok {token : String} {c : Char} (htoken : token.toList = [c])
    (hgap : isGap c = false) {unary : Reader Term} {t : Term} {s₁ s₂ rest : List Char}
    (hsign : Spaced [c] s₁) (h : unary s₂ = .ok t rest) (build : Term → Term) :
    signed token unary build (s₁ ++ s₂) = .ok (build t) rest := by
  rw [signed, bind_of_ok (symbol_of_spaced htoken hsign hgap s₂), bind_of_ok (cut_of_ok h)]
  rfl

theorem fails_signed {token : String} {c : Char} (htoken : token.toList = [c]) {s : List Char}
    (h : next? s ≠ some c) (unary : Reader Term) (build : Term → Term) :
    Fails (signed token unary build) s := (fails_symbol htoken h).bind _

theorem between_of_ok {α : Type} {opening closing : Reader Unit} {r : Reader α} {a : α}
    {s s₁ s₂ rest : List Char} (hopen : opening s = .ok () s₁) (h : r s₁ = .ok a s₂)
    (hclose : closing s₂ = .ok () rest) : between opening r closing s = .ok a rest := by
  rw [between, bind_of_ok hopen, bind_of_ok h, bind_of_ok hclose]
  rfl

theorem castTo_of_ok {keyword : String} {type : ValueType} {unary : Reader Term} {t : Term}
    {s₁ s₂ s₃ s₄ rest : List Char} (htype : ValueType.ofKeyword? keyword = some type)
    (hopen : Spaced ['('] s₁) (hname : Spaced keyword.toList s₂) (hclose : Spaced [')'] s₃)
    (h : unary s₄ = .ok t rest) :
    castTo unary (s₁ ++ (s₂ ++ (s₃ ++ s₄))) = .ok (.unary (.convert type) t) rest := by
  have hapart : isApart (s₃ ++ s₄) = true := isApart_of_spaced hclose (by decide) (by decide) s₄
  have hcast : between (symbol "(") castType (symbol ")") (s₁ ++ (s₂ ++ (s₃ ++ s₄))) =
      .ok type s₄ :=
    between_of_ok (symbol_of_spaced rfl hopen rfl _) (castType_of_spaced htype hname hapart)
      (symbol_of_spaced rfl hclose rfl s₄)
  rw [castTo, bind_of_ok hcast, bind_of_ok h]
  rfl

/-- The alternatives of the reader of operands, in turn. -/
theorem readerAt_seven (n : Nat) : readerAt n 7 =
    firstOf (signed "!" (Grammar.nested n).unary (.unary .not))
      [signed "-" (Grammar.nested n).unary .negated,
        signed "+" (Grammar.nested n).unary (.unary .plus), castTo (Grammar.nested n).unary,
        readerAt n 8] := rfl

/-- An operand without an operator in front. -/
theorem Heard.operand {n : Nat} {t : Term} {s : List Char} (hs : Term.Spelled 8 t s)
    (h : Heard n 8 t s) : Heard n 7 t s := by
  refine .of_whole (by rintro (h | h) <;> omega) fun rest hrest => ?_
  have haccess := h.whole rest (hrest.succ (by decide))
  rw [readerAt_seven]
  refine firstOf_of_fails (fails_signed rfl (hs.next?_ne (by decide) rest) _ _) ?_
  refine firstOf_of_fails (fails_signed rfl (hs.next?_ne (by decide) rest) _ _) ?_
  refine firstOf_of_fails (fails_signed rfl (hs.next?_ne (by decide) rest) _ _) ?_
  exact firstOf_of_fails (fails_castTo (by decide) hs _ rest) haccess

/-! ## 4. Members and calls -/

variable {α : Type}

theorem itemsAfter_of_further {item : Reader α} {pairs : List (α × List Char)} {s rest : List Char}
    (h : Further (pairs.map Prod.snd) s)
    (hitem : ∀ p ∈ pairs, ∀ rest, Stops 0 rest → item (p.2 ++ rest) = .ok p.1 rest)
    (hrest : Stops 0 rest) (hcomma : next? rest ≠ some ',') (first : α) :
    itemsAfter (symbol ",") item first (s ++ rest) = .ok (first :: pairs.map Prod.fst) rest := by
  -- the repetition has arrived at the items so far and those of the list
  have harrives : ∀ (items : List α), Arrives (fun items => do
      symbol ","
      let a ← item
      return items ++ [a]) items (s ++ rest) (items ++ pairs.map Prod.fst) rest := by
    induction pairs generalizing s with
    | nil =>
      intro items
      cases h
      rw [List.map_nil, List.append_nil]
      exact .refl _ _ _
    | cons p pairs ih =>
      intro items
      cases h with
      | @cons comma _ more _ hspaced hmore =>
        have hp := hitem p List.mem_cons_self (more ++ rest) (hmore.stops hrest)
        have hrec := ih hmore (fun q hq => hitem q (List.mem_cons_of_mem p hq)) (items ++ [p.1])
        have hstep : (do
            symbol ","
            let a ← item
            return items ++ [a]) (comma ++ (p.2 ++ (more ++ rest))) =
              .ok (items ++ [p.1]) (more ++ rest) := by
          rw [bind_of_ok (symbol_of_spaced rfl hspaced rfl _), bind_of_ok hp]
          rfl
        have hlength : (more ++ rest).length < (comma ++ (p.2 ++ (more ++ rest))).length := by
          have := hspaced.length_le
          simp only [List.length_append, List.length_singleton] at *
          omega
        have happend : items ++ (p :: pairs).map Prod.fst =
            items ++ [p.1] ++ pairs.map Prod.fst := by simp
        rw [List.append_assoc, List.append_assoc, happend]
        exact (Arrives.single hstep hlength).trans hrec
  have hend : Fails (do
      symbol ","
      let a ← item
      return (first :: pairs.map Prod.fst) ++ [a]) rest := (fails_symbol rfl hcomma).bind _
  exact (harrives [first]).iterate hend

theorem separated₁_of_listed {item : Reader α} {pairs : List (α × List Char)} {s rest : List Char}
    (h : Listed (pairs.map Prod.snd) s) (hsome : pairs ≠ [])
    (hitem : ∀ p ∈ pairs, ∀ rest, Stops 0 rest → item (p.2 ++ rest) = .ok p.1 rest)
    (hrest : Stops 0 rest) (hcomma : next? rest ≠ some ',') :
    separated₁ (symbol ",") item (s ++ rest) = .ok (pairs.map Prod.fst) rest := by
  cases pairs with
  | nil => exact absurd rfl hsome
  | cons p pairs =>
    obtain ⟨more, hmore, rfl⟩ := h
    have hp := hitem p List.mem_cons_self (more ++ rest) (hmore.stops hrest)
    rw [List.append_assoc, separated₁, bind_of_ok hp]
    exact itemsAfter_of_further hmore (fun q hq => hitem q (List.mem_cons_of_mem p hq)) hrest hcomma
      p.1

theorem separated_of_listed {item : Reader α} {pairs : List (α × List Char)} {s rest : List Char}
    (h : Listed (pairs.map Prod.snd) s)
    (hitem : ∀ p ∈ pairs, ∀ rest, Stops 0 rest → item (p.2 ++ rest) = .ok p.1 rest)
    (hrest : Stops 0 rest) (hcomma : next? rest ≠ some ',') (hnone : Fails item rest) :
    separated (symbol ",") item (s ++ rest) = .ok (pairs.map Prod.fst) rest := by
  cases pairs with
  | nil =>
    obtain rfl : s = [] := h
    rw [separated, List.nil_append, bind_of_ok (optional_of_fails hnone)]
    rfl
  | cons p pairs =>
    obtain ⟨more, hmore, rfl⟩ := h
    have hp := hitem p List.mem_cons_self (more ++ rest) (hmore.stops hrest)
    rw [List.append_assoc, separated, bind_of_ok (optional_of_ok hp)]
    exact itemsAfter_of_further hmore (fun q hq => hitem q (List.mem_cons_of_mem p hq)) hrest hcomma
      p.1

/-- No term starts where the text goes on with something else. -/
theorem fails_readerAt (n : Nat) {s : List Char} (h : ∀ c ∈ next? s, isOpening 0 c = false) :
    Fails (readerAt n 0) s := by
  have hne : ∀ {d : Char}, isOpening 0 d = true → next? s ≠ some d := by
    intro d hd heq
    rw [h d heq] at hd
    cases hd
  have hnumber : Fails number s := fails_number fun c hc => by
    have hopening := h c hc
    simp only [isOpening, Bool.or_eq_false_iff] at hopening
    exact hopening.1.1.1.1.2
  have hname : Fails name s := fails_name fun c hc => by
    have hopening := h c hc
    simp only [isOpening, Bool.or_eq_false_iff] at hopening
    exact hopening.1.1.1.1.1
  have hatom : Fails (readerAt n 9) s := by
    refine fails_firstOf hnumber fun r hr => ?_
    simp only [List.mem_cons, List.not_mem_nil, or_false] at hr
    rcases hr with rfl | rfl | rfl | rfl
    · exact fails_stringLiteral (hne rfl)
    · exact fails_charLiteral (hne rfl)
    · exact (fails_symbol rfl (hne rfl)).bind _
    · exact hname.bind _
  have haccess : Fails (readerAt n 8) s := hatom.bind _
  have hunary : Fails (readerAt n 7) s := by
    refine fails_firstOf (fails_signed rfl (hne rfl) _ _) fun r hr => ?_
    simp only [List.mem_cons, List.not_mem_nil, or_false] at hr
    rcases hr with rfl | rfl | rfl | rfl
    · exact fails_signed rfl (hne rfl) _ _
    · exact fails_signed rfl (hne rfl) _ _
    · exact ((fails_symbol rfl (hne rfl)).bind _).bind _
    · exact haccess
  have hlevels : ∀ l ≤ 7, Fails (readerAt n (7 - l)) s := by
    intro l hl
    induction l with
    | zero => exact hunary
    | succ l ih =>
      rw [readerAt_of_repeats n (.inl (by omega)), show 7 - (l + 1) + 1 = 7 - l by omega]
      exact (ih (by omega)).bind _
  exact hlevels 7 (Nat.le_refl 7)

theorem accessStep_member {term : Reader Term} {label : String} (hlabel : isName label = true)
    {s₁ s₂ rest : List Char} (hpoint : Spaced ['.'] s₁) (hname : Spaced label.toList s₂)
    (hrest : Stops 9 rest) (t : Term) :
    accessStep term t (s₁ ++ (s₂ ++ rest)) = .ok (.member t label) rest := by
  have hnone : Fails (arguments term) rest :=
    (fails_symbol rfl (hrest.next?_ne (by decide))).bind _
  rw [accessStep, bind_of_ok (symbol_of_spaced rfl hpoint rfl _),
    bind_of_ok (name_of_spaced hlabel hname hrest.apart), bind_of_ok (optional_of_fails hnone)]
  rfl

theorem accessStep_call {term : Reader Term} {label : String} (hlabel : isName label = true)
    {s₁ s₂ s₃ rest : List Char} (hpoint : Spaced ['.'] s₁) (hname : Spaced label.toList s₂)
    (hapart : isApart s₃ = true) {args : List Term} (hargs : arguments term s₃ = .ok args rest)
    (t : Term) :
    accessStep term t (s₁ ++ (s₂ ++ s₃)) = .ok (.call t ⟨none, label⟩ args) rest := by
  rw [accessStep, bind_of_ok (symbol_of_spaced rfl hpoint rfl _),
    bind_of_ok (name_of_spaced hlabel hname hapart), bind_of_ok (optional_of_ok hargs)]
  rfl

/-! ## 5. Atoms -/

variable {term access : Reader Term}

/-- A word is none of the other atoms. -/
theorem atom_of_word {w : String} (hw : isName w = true) {s rest rest' : List Char}
    (h : Spaced w.toList s) {t : Term} (hword : word term access (s ++ rest) = .ok t rest') :
    atom term access (s ++ rest) = .ok t rest' := by
  obtain ⟨c, hc, hstart⟩ := next?_of_name hw h rest
  have hne : ∀ {d : Char}, isNameStart d = false → next? (s ++ rest) ≠ some d := by
    intro d hd heq
    rw [hc] at heq
    cases heq
    rw [hstart] at hd
    cases hd
  have hnumber : Fails number (s ++ rest) := fails_number fun d hd => by
    cases hdigit : d.isDigit with
    | false => rfl
    | true => exact absurd hd (hne (isNameStart_of_isDigit hdigit))
  refine firstOf_of_fails hnumber ?_
  refine firstOf_of_fails (fails_stringLiteral (hne rfl)) ?_
  refine firstOf_of_fails (fails_charLiteral (hne rfl)) ?_
  exact firstOf_of_fails ((fails_symbol rfl (hne rfl)).bind _) hword

theorem word_of_name {w : String} (hw : isName w = true) {s rest : List Char}
    (h : Spaced w.toList s) (hrest : isApart rest = true) : word term access (s ++ rest) =
      (if w = "true" then (return .ofLiteral (.bool true) : Reader Term)
      else if w = "false" then return .ofLiteral (.bool false)
      else if w = "null" then return .null .object
      else if w = "new" then object term access
      else return .parameter w) rest := bind_of_ok (name_of_spaced hw h hrest) _

theorem atom_of_literal {v : Literal} {token s rest : List Char} (hv : v.Spelled token)
    (h : Spaced token s) (hrest : isApart rest = true) :
    atom term access (s ++ rest) = .ok (.ofLiteral v) rest := by
  have hquote : ∀ {cs : List Char} {d : Char}, Spaced (d :: cs) s → isGap d = false →
      d.isDigit = false → Fails number (s ++ rest) := by
    intro cs d hspaced hgap hdigit
    refine fails_number fun c hc => ?_
    rw [hspaced.next? hgap rest] at hc
    cases hc
    exact hdigit
  cases hv with
  | bool b =>
    cases b with
    | true =>
      exact atom_of_word (w := "true") (by decide) h
        ((word_of_name (w := "true") (by decide) h hrest).trans rfl)
    | false =>
      exact atom_of_word (w := "false") (by decide) h
        ((word_of_name (w := "false") (by decide) h hrest).trans rfl)
  | int32 hn => exact firstOf_of_ok (number_of_int32 hn h hrest) _
  | int64 hn => exact firstOf_of_ok (number_of_int64 hn h rest) _
  | string hbody =>
    refine firstOf_of_fails (hquote h rfl rfl) ?_
    exact firstOf_of_ok (stringLiteral_of_spaced hbody h rest) _
  | char hbody =>
    refine firstOf_of_fails (hquote h rfl rfl) ?_
    refine firstOf_of_fails (fails_stringLiteral ?_) ?_
    · rw [h.next? rfl rest]
      decide
    · exact firstOf_of_ok (charLiteral_of_spaced hbody h rest) _

theorem atom_of_null {s rest : List Char} (h : Spaced "null".toList s)
    (hrest : isApart rest = true) : atom term access (s ++ rest) = .ok (.null .object) rest :=
  atom_of_word (by decide) h ((word_of_name (by decide) h hrest).trans rfl)

theorem atom_of_parameter {w : String} (hw : isName w = true) (hword : isKeyword w = false)
    {s rest : List Char} (h : Spaced w.toList s) (hrest : isApart rest = true) :
    atom term access (s ++ rest) = .ok (.parameter w) rest := by
  refine atom_of_word hw h ((word_of_name hw h hrest).trans ?_)
  simp only [isKeyword, Bool.or_eq_false_iff, decide_eq_false_iff_not] at hword
  obtain ⟨⟨⟨htrue, hfalse⟩, hnull⟩, hnew⟩ := hword
  rw [if_neg htrue, if_neg hfalse, if_neg hnull, if_neg hnew]
  rfl

theorem atom_of_parens {t : Term} {s₁ s₂ s₃ : List Char} (hopen : Spaced ['('] s₁)
    (hclose : Spaced [')'] s₃) (rest : List Char)
    (h : term (s₂ ++ (s₃ ++ rest)) = .ok t (s₃ ++ rest)) :
    atom term access (s₁ ++ (s₂ ++ (s₃ ++ rest))) = .ok t rest := by
  have hnext := hopen.next? rfl (s₂ ++ (s₃ ++ rest))
  have hne : ∀ {d : Char}, d ≠ '(' → next? (s₁ ++ (s₂ ++ (s₃ ++ rest))) ≠ some d := by
    intro d hd heq
    rw [hnext] at heq
    cases heq
    exact hd rfl
  have hnumber : Fails number (s₁ ++ (s₂ ++ (s₃ ++ rest))) := fails_number fun c hc => by
    rw [hnext] at hc
    cases hc
    rfl
  refine firstOf_of_fails hnumber ?_
  refine firstOf_of_fails (fails_stringLiteral (hne (by decide))) ?_
  refine firstOf_of_fails (fails_charLiteral (hne (by decide))) ?_
  exact firstOf_of_ok (between_of_ok (symbol_of_spaced rfl hopen rfl _) h
    (cut_of_ok (symbol_of_spaced rfl hclose rfl rest))) _

/-- **A member of an object is read with its label.** -/
theorem objectMember_of_framed {m : MemberText} (hframe : m.IsFramed)
    (hvalue : Term.Spelled 0 m.value m.valueText) {rest : List Char}
    (h : term (m.valueText ++ rest) = .ok m.value rest) :
    objectMember term access (m.text ++ rest) = .ok m.pair rest := by
  obtain ⟨hname, hlabel, hsign⟩ := hframe
  have hapart : isApart (m.signText ++ (m.valueText ++ rest)) = true :=
    isApart_of_spaced hsign (by decide) (by decide) _
  have hlabelled : memberLabel (m.text ++ rest) = .ok m.label (m.valueText ++ rest) := by
    have hequals := head?_ne_of_spelled hvalue (d := '=') (by decide) (by decide) rest
    have harrow := head?_ne_of_spelled hvalue (d := '>') (by decide) (by decide) rest
    rw [MemberText.text, List.append_assoc, List.append_assoc, memberLabel,
      bind_of_ok (name_of_spaced hname hlabel hapart), bind_of_ok (symbol_of_spaced rfl hsign rfl _)]
    cases hs : m.valueText ++ rest with
    | nil => rfl
    | cons c cs =>
      rw [hs] at hequals harrow
      have hc : ¬ ((decide (c = '=') || decide (c = '>')) = true) := by
        simpa using ⟨by simpa using hequals, by simpa using harrow⟩
      simp only [here, bind_apply, if_neg hc]
      rfl
  simp only [objectMember, hlabelled]
  rw [bind_of_ok (cut_of_ok h)]
  rfl

theorem atom_of_object {members : List MemberText} {s₁ s₂ s₃ s₄ rest : List Char}
    (hnew : Spaced "new".toList s₁) (hopen : Spaced ['\x7b'] s₂) (hsome : members ≠ [])
    (hframe : ∀ m ∈ members, m.IsFramed)
    (hvalues : ∀ m ∈ members, Term.Spelled 0 m.value m.valueText)
    (hlist : Listed (members.map MemberText.text) s₃) (hclose : Spaced ['\x7d'] s₄)
    (h : ∀ m ∈ members, ∀ rest, Stops 0 rest → term (m.valueText ++ rest) = .ok m.value rest) :
    atom term access (s₁ ++ (s₂ ++ (s₃ ++ (s₄ ++ rest)))) =
      .ok (.object (members.map MemberText.pair)) rest := by
  have hapart : isApart (s₂ ++ (s₃ ++ (s₄ ++ rest))) = true :=
    isApart_of_spaced hopen (by decide) (by decide) _
  have hstops : Stops 0 (s₄ ++ rest) :=
    .of_spaced hclose (by decide) (by decide) (by decide) (by decide) rest
  have hcomma : next? (s₄ ++ rest) ≠ some ',' := by
    rw [hclose.next? rfl rest]
    decide
  have hlist' : Listed ((members.map fun m => (m.pair, m.text)).map Prod.snd) s₃ := by
    simpa [Function.comp_def] using hlist
  have hitems : separated₁ (symbol ",") (objectMember term access) (s₃ ++ (s₄ ++ rest)) =
      .ok (members.map MemberText.pair) (s₄ ++ rest) := by
    have hmembers : ∀ p ∈ members.map fun m => (m.pair, m.text), ∀ rest, Stops 0 rest →
        objectMember term access (p.2 ++ rest) = .ok p.1 rest := by
      intro p hp rest' hrest'
      obtain ⟨m, hm, rfl⟩ := List.mem_map.mp hp
      exact objectMember_of_framed (hframe m hm) (hvalues m hm) (h m hm rest' hrest')
    have hread := separated₁_of_listed hlist' (by simpa using hsome) hmembers hstops hcomma
    simpa [Function.comp_def] using hread
  have hobject : object term access (s₂ ++ (s₃ ++ (s₄ ++ rest))) =
      .ok (.object (members.map MemberText.pair)) rest := by
    rw [object, bind_of_ok (between_of_ok (cut_of_ok (symbol_of_spaced rfl hopen rfl _)) hitems
      (cut_of_ok (symbol_of_spaced rfl hclose rfl rest)))]
    rfl
  exact atom_of_word (by decide) hnew ((word_of_name (by decide) hnew hapart).trans hobject)

/-! ## 6. Terms -/

theorem repeats_level (op : BinaryOp) : Repeats op.level := .inl op.level_lt

theorem Heard.loosen {n l : Nat} (hl : l < 9) {t : Term} {s : List Char}
    (hs : Term.Spelled (l + 1) t s) (h : Heard n (l + 1) t s) : Heard n l t s := by
  by_cases hrepeats : Repeats l
  · exact .of_onwards hrepeats fun rest hrest => ⟨t, rest, h.whole rest hrest, .refl _ _ _⟩
  · obtain rfl : l = 7 := by
      simp only [Repeats] at hrepeats
      omega
    exact h.operand hs

theorem Heard.binary {n : Nat} (op : BinaryOp) {left right : Term} {s₁ s₂ s₃ : List Char}
    (hleft : Heard n op.level left s₁) (hsign : Spaced op.symbol.toList s₂)
    (hs : Term.Spelled (op.level + 1) right s₃) (hright : Heard n (op.level + 1) right s₃) :
    Heard n op.level (.binary op left right) (s₁ ++ (s₂ ++ s₃)) := by
  refine hleft.step (repeats_level op) (fun rest hrest => ?_) ?_
  · rw [List.append_assoc]
    refine ⟨.of_sign op hsign _, ?_⟩
    have hequals := head?_ne_of_spelled hs (d := '=') (by decide) (by decide) rest
    rw [stepAt_of_lt n op.level_lt, binaryStep, bind_of_ok (sign_of_spaced op hsign hequals),
      bind_of_ok (cut_of_ok (hright.whole rest hrest))]
    rfl
  · have := hs.length_pos
    rw [List.length_append]
    omega

theorem not_repeats_seven : ¬ Repeats 7 := by
  rintro (h | h) <;> omega

theorem not_repeats_nine : ¬ Repeats 9 := by
  rintro (h | h) <;> omega

theorem Heard.not {n : Nat} {t : Term} {s₁ s₂ : List Char} (hsign : Spaced ['!'] s₁)
    (h : Heard n 7 t s₂) : Heard (n + 1) 7 (.unary .not t) (s₁ ++ s₂) := by
  refine .of_whole not_repeats_seven fun rest hrest => ?_
  rw [readerAt_seven, List.append_assoc]
  exact firstOf_of_ok (signed_of_ok rfl rfl hsign (h.whole rest hrest) _) _

theorem Heard.minus {n : Nat} {t : Term} {s₁ s₂ : List Char} (hsign : Spaced ['-'] s₁)
    (h : Heard n 7 t s₂) : Heard (n + 1) 7 t.negated (s₁ ++ s₂) := by
  refine .of_whole not_repeats_seven fun rest hrest => ?_
  have hne : next? (s₁ ++ (s₂ ++ rest)) ≠ some '!' := by
    rw [hsign.next? rfl]
    decide
  rw [readerAt_seven, List.append_assoc]
  refine firstOf_of_fails (fails_signed rfl hne _ _) ?_
  exact firstOf_of_ok (signed_of_ok rfl rfl hsign (h.whole rest hrest) _) _

theorem Heard.plus {n : Nat} {t : Term} {s₁ s₂ : List Char} (hsign : Spaced ['+'] s₁)
    (h : Heard n 7 t s₂) : Heard (n + 1) 7 (.unary .plus t) (s₁ ++ s₂) := by
  refine .of_whole not_repeats_seven fun rest hrest => ?_
  have hnext := hsign.next? rfl (s₂ ++ rest)
  rw [readerAt_seven, List.append_assoc]
  refine firstOf_of_fails (fails_signed rfl (by rw [hnext]; decide) _ _) ?_
  refine firstOf_of_fails (fails_signed rfl (by rw [hnext]; decide) _ _) ?_
  exact firstOf_of_ok (signed_of_ok rfl rfl hsign (h.whole rest hrest) _) _

theorem Heard.cast {n : Nat} {keyword : String} {type : ValueType} {t : Term}
    {s₁ s₂ s₃ s₄ : List Char} (htype : ValueType.ofKeyword? keyword = some type)
    (hopen : Spaced ['('] s₁) (hname : Spaced keyword.toList s₂) (hclose : Spaced [')'] s₃)
    (h : Heard n 7 t s₄) :
    Heard (n + 1) 7 (.unary (.convert type) t) (s₁ ++ (s₂ ++ (s₃ ++ s₄))) := by
  refine .of_whole not_repeats_seven fun rest hrest => ?_
  have hnext := hopen.next? rfl (s₂ ++ (s₃ ++ (s₄ ++ rest)))
  rw [readerAt_seven]
  simp only [List.append_assoc]
  refine firstOf_of_fails (fails_signed rfl (by rw [hnext]; decide) _ _) ?_
  refine firstOf_of_fails (fails_signed rfl (by rw [hnext]; decide) _ _) ?_
  refine firstOf_of_fails (fails_signed rfl (by rw [hnext]; decide) _ _) ?_
  exact firstOf_of_ok (castTo_of_ok htype hopen hname hclose (h.whole rest hrest)) _

theorem Heard.member {n : Nat} {t : Term} {label : String} {s₁ s₂ s₃ : List Char}
    (h : Heard n 8 t s₁) (hpoint : Spaced ['.'] s₂) (hlabel : isName label = true)
    (hname : Spaced label.toList s₃) : Heard n 8 (.member t label) (s₁ ++ (s₂ ++ s₃)) := by
  refine h.step (.inr rfl) (fun rest hrest => ?_) ?_
  · rw [List.append_assoc]
    exact ⟨.of_point hpoint hlabel hname rest, accessStep_member hlabel hpoint hname hrest t⟩
  · have := hpoint.length_le
    simp only [List.length_append, List.length_singleton] at *
    omega

/-- The arguments of a call, at one depth less. -/
theorem Heard.call {n : Nat} {t : Term} {label : String} {args : List (Term × List Char)}
    {s₁ s₂ s₃ s₄ s₅ s₆ : List Char} (h : Heard (n + 1) 8 t s₁) (hpoint : Spaced ['.'] s₂)
    (hlabel : isName label = true) (hname : Spaced label.toList s₃) (hopen : Spaced ['('] s₄)
    (hargs : ∀ a ∈ args, Heard n 0 a.1 a.2) (hlist : Listed (args.map Prod.snd) s₅)
    (hclose : Spaced [')'] s₆) : Heard (n + 1) 8 (.call t ⟨none, label⟩ (args.map Prod.fst))
      (s₁ ++ (s₂ ++ (s₃ ++ (s₄ ++ (s₅ ++ s₆))))) := by
  refine h.step (.inr rfl) (fun rest _ => ?_) ?_
  · simp only [List.append_assoc]
    refine ⟨.of_point hpoint hlabel hname _, ?_⟩
    have hstops : Stops 0 (s₆ ++ rest) :=
      .of_spaced hclose (by decide) (by decide) (by decide) (by decide) rest
    have hnext := hclose.next? rfl rest
    have hnone : Fails (readerAt n 0) (s₆ ++ rest) := fails_readerAt n fun c hc => by
      rw [hnext] at hc
      cases hc
      decide
    have hitems : separated (symbol ",") (readerAt n 0) (s₅ ++ (s₆ ++ rest)) =
        .ok (args.map Prod.fst) (s₆ ++ rest) :=
      separated_of_listed hlist (fun a ha rest' hrest' => (hargs a ha).whole rest' hrest') hstops
        (by rw [hnext]; decide) hnone
    have harguments : arguments (readerAt n 0) (s₄ ++ (s₅ ++ (s₆ ++ rest))) =
        .ok (args.map Prod.fst) rest :=
      between_of_ok (symbol_of_spaced rfl hopen rfl _) hitems
        (cut_of_ok (symbol_of_spaced rfl hclose rfl rest))
    exact accessStep_call hlabel hpoint hname (isApart_of_spaced hopen (by decide) (by decide) _)
      harguments t
  · have := hpoint.length_le
    simp only [List.length_append, List.length_singleton] at *
    omega

theorem Heard.atom {n : Nat} {t : Term} {s : List Char}
    (h : ∀ rest, isApart rest = true →
      Reader.atom (Grammar.nested n).term (Grammar.nested n).access (s ++ rest) = .ok t rest) :
    Heard n 9 t s := .of_whole not_repeats_nine fun rest hrest => h rest hrest.apart

theorem Heard.object {n : Nat} {members : List MemberText} {s₁ s₂ s₃ s₄ : List Char}
    (hnew : Spaced "new".toList s₁) (hopen : Spaced ['\x7b'] s₂) (hsome : members ≠ [])
    (hframe : ∀ m ∈ members, m.IsFramed)
    (hvalues : ∀ m ∈ members, Term.Spelled 0 m.value m.valueText)
    (hlist : Listed (members.map MemberText.text) s₃) (hclose : Spaced ['\x7d'] s₄)
    (h : ∀ m ∈ members, Heard n 0 m.value m.valueText) :
    Heard (n + 1) 9 (.object (members.map MemberText.pair)) (s₁ ++ (s₂ ++ (s₃ ++ s₄))) := by
  refine .atom fun rest _ => ?_
  simp only [List.append_assoc]
  exact atom_of_object hnew hopen hsome hframe hvalues hlist hclose fun m hm => (h m hm).whole

theorem Heard.parens {n : Nat} {t : Term} {s₁ s₂ s₃ : List Char} (hopen : Spaced ['('] s₁)
    (hclose : Spaced [')'] s₃) (h : Heard n 0 t s₂) : Heard (n + 1) 9 t (s₁ ++ (s₂ ++ s₃)) := by
  refine .atom fun rest _ => ?_
  simp only [List.append_assoc]
  exact atom_of_parens hopen hclose rest
    (h.whole _ (.of_spaced hclose (by decide) (by decide) (by decide) (by decide) rest))

end Reader

/-- What follows a sign is shorter than the whole, and so is read one depth further down. -/
theorem Spaced.deeper {c : Char} {sign : List Char} (h : Spaced [c] sign) (part : List Char)
    {n : Nat} (hn : sign.length + part.length ≤ n) : ∃ m, n = m + 1 ∧ part.length ≤ m := by
  have hlength : 1 ≤ sign.length := h.length_le
  exact ⟨n - 1, by omega, by omega⟩

/-- **Every text of a term is read as the term**, at every depth of nesting that is not less than
    the text's length. -/
theorem Term.Spelled.heard {l : Nat} {t : Term} {s : List Char} (h : Spelled l t s) {n : Nat}
    (hn : s.length ≤ n) : Reader.Heard n l t s := by
  induction h generalizing n with
  | loosen hl h ih => exact (ih hn).loosen hl h
  | binary op _ hsign hright ihleft ihright =>
    simp only [List.length_append] at hn
    exact (ihleft (by omega)).binary op hsign hright (ihright (by omega))
  | not hsign _ ih =>
    rw [List.length_append] at hn
    obtain ⟨m, rfl, hm⟩ := hsign.deeper _ hn
    exact (ih hm).not hsign
  | minus hsign _ ih =>
    rw [List.length_append] at hn
    obtain ⟨m, rfl, hm⟩ := hsign.deeper _ hn
    exact (ih hm).minus hsign
  | plus hsign _ ih =>
    rw [List.length_append] at hn
    obtain ⟨m, rfl, hm⟩ := hsign.deeper _ hn
    exact (ih hm).plus hsign
  | @cast _ _ _ s₁ s₂ s₃ s₄ htype hopen hname hclose _ ih =>
    simp only [List.length_append] at hn
    have hinner : s₁.length + s₄.length ≤ n := by omega
    obtain ⟨m, rfl, hm⟩ := hopen.deeper s₄ hinner
    exact (ih hm).cast htype hopen hname hclose
  | member _ hpoint hlabel hname ih =>
    rw [List.length_append] at hn
    exact (ih (by omega)).member hpoint hlabel hname
  | @call _ _ _ s₁ s₂ s₃ s₄ s₅ s₆ _ hpoint hlabel hname hopen _ hlist hclose ih ihargs =>
    simp only [List.length_append] at hn
    have hinner : s₄.length + s₅.length ≤ n := by omega
    obtain ⟨m, rfl, hm⟩ := hopen.deeper s₅ hinner
    refine (ih (by omega)).call hpoint hlabel hname hopen (fun a ha => ihargs a ha ?_) hlist hclose
    exact Nat.le_trans (hlist.length_le a.2 (List.mem_map_of_mem ha)) hm
  | literal hv h => exact .atom fun rest hrest => Reader.atom_of_literal hv h hrest
  | null h => exact .atom fun rest hrest => Reader.atom_of_null h hrest
  | parameter hname hword h =>
    exact .atom fun rest hrest => Reader.atom_of_parameter hname hword h hrest
  | @object members s₁ s₂ s₃ s₄ hnew hopen hsome hframe hvalues hlist hclose ih =>
    simp only [List.length_append] at hn
    have hinner : s₂.length + s₃.length ≤ n := by omega
    obtain ⟨m, rfl, hm⟩ := hopen.deeper s₃ hinner
    refine .object hnew hopen hsome hframe hvalues hlist hclose fun member hmember => ih member hmember ?_
    have htext := hlist.length_le member.text (List.mem_map_of_mem hmember)
    simp only [MemberText.text, List.length_append] at htext
    omega
  | @parens _ s₁ s₂ s₃ hopen _ _ hclose ih =>
    simp only [List.length_append] at hn
    have hinner : s₁.length + s₂.length ≤ n := by omega
    obtain ⟨m, rfl, hm⟩ := hopen.deeper s₂ hinner
    exact .parens hopen hclose (ih hm)

namespace Reader

theorem term_of_spelled {t : Term} {s rest : List Char} (h : Term.Spelled 0 t s)
    (hrest : Stops 0 rest) : term (s ++ rest) = .ok t rest := by
  have hlength : s.length ≤ (s ++ rest).length := by simp
  exact (h.heard hlength).whole rest hrest

/-- **A lambda is read with calls on types in its body resolved.** -/
theorem lambda_of_spelled {param : String} (hparam : isName param = true) {t : Term}
    {s₁ s₂ s₃ rest : List Char} (hname : Spaced param.toList s₁) (harrow : Spaced ['=', '>'] s₂)
    (h : Term.Spelled 0 t s₃) (hrest : Stops 0 rest) :
    lambda (s₁ ++ (s₂ ++ (s₃ ++ rest))) = .ok ⟨param, t.withOwners param⟩ rest := by
  have hapart : isApart (s₂ ++ (s₃ ++ rest)) = true :=
    isApart_of_spaced harrow (by decide) (by decide) _
  rw [lambda, bind_of_ok (name_of_spaced hparam hname hapart),
    bind_of_ok (symbol_of_spaced rfl harrow rfl _), bind_of_ok (cut_of_ok (term_of_spelled h hrest))]
  rfl

end Reader

end EntityQuery
