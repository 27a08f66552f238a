import EntityQuery.Proofs.Spelling.Chains
import Mathlib.Data.List.TakeWhile

/-!
Which literals can be read off their own text.

* `Reader.readerAt_of_literal` -- a text that is read as a literal is one operand: what the loops of
  the grammar put around an operand is never a literal;
* `Reader.quoted_of_term` -- so a literal that is read off a quote is what stands between the
  quotes, and `quoted_of_quotedBody` -- what stands there is spelled as `Quoted` says;
* `Quoted.length_le` -- between quotes every quote and every backslash takes two characters. The
  text of a literal spends a second character on double quotes inside a text and on nothing else;
* `Literal.texts_read_back_iff_unescaped` -- **truth values come back, and so do all integers but
  the least of either width, exactly the texts without backslash, and all characters but backslash
  and single quote**.
-/
namespace EntityQuery

open Text

namespace Reader

variable {α β : Type}

/-! ## 1. Readers backwards -/

theorem exists_of_bind_ok {r : Reader α} {f : α → Reader β} {s rest : List Char} {b : β}
    (h : (r >>= f) s = .ok b rest) : ∃ a s', r s = .ok a s' ∧ f a s' = .ok b rest := by
  rw [bind_apply] at h
  cases hr : r s with
  | ok a s' => exact ⟨a, s', rfl, by simpa only [hr] using h⟩
  | error fault => simp only [hr, reduceCtorEq] at h
  | failure fault => simp only [hr, reduceCtorEq] at h

theorem ok_of_cut_ok {r : Reader α} {s rest : List Char} {a : α} (h : r.cut s = .ok a rest) :
    r s = .ok a rest := by
  unfold cut at h
  split at h
  · cases h
  · exact h

/-- Where the first reader has an error the value is that of the others. -/
theorem firstOf_ok_of_fails {r q : Reader α} {s rest : List Char} {a : α} (hr : Fails r s)
    {rs : List (Reader α)} (h : firstOf r (q :: rs) s = .ok a rest) :
    firstOf q rs s = .ok a rest := by
  obtain ⟨f, hf⟩ := hr
  have hor : firstOf (orElse r q) rs s = .ok a rest := h
  cases hq : q s with
  | ok b s' =>
    have hsame : orElse r q s = q s := by simp only [orElse, hf, hq]
    exact (firstOf_congr hsame rs).symm.trans hor
  | failure g =>
    have hsame : orElse r q s = q s := by simp only [orElse, hf, hq]
    exact (firstOf_congr hsame rs).symm.trans hor
  | error g =>
    exact firstOf_of_fails_both ⟨f.further g, by simp only [orElse, hf, hq]⟩ ⟨g, hq⟩ hor

/-- Where the first reader has no error the others do not count. -/
theorem firstOf_of_not_fails {r : Reader α} {s : List Char} (h : ¬ Fails r s)
    (rs : List (Reader α)) : firstOf r rs s = r s := by
  induction rs generalizing r with
  | nil => rfl
  | cons q rs ih =>
    have hsame : orElse r q s = r s := by
      cases hr : r s with
      | error f => exact absurd ⟨f, hr⟩ h
      | _ => simp only [orElse, hr]
    have hfails : ¬ Fails (orElse r q) s := by
      rintro ⟨f, hf⟩
      exact h ⟨f, hsame.symm.trans hf⟩
    exact (ih hfails).trans hsame

/-- A repetition whose steps give nothing of a kind gives something of it only if it takes no
    step. -/
theorem eq_of_iterate_ok {P : α → Prop} {step : α → Reader α}
    (hstep : ∀ a, Yields (fun b => ¬ P b) (step a)) {a b : α} {s rest : List Char}
    (h : iterate step a s = .ok b rest) (hb : P b) : a = b ∧ s = rest := by
  cases hlength : s.length with
  | zero =>
    rw [iterate, hlength] at h
    cases h
    exact ⟨rfl, rfl⟩
  | succ n =>
    rw [iterate, hlength] at h
    unfold iterateAtMost at h
    split at h
    · rename_i c s' hc
      have hmore : Yields (fun b => ¬ P b) (iterateAtMost step n c) :=
        .iterateAtMost (fun a _ => hstep a) n (hstep a s c s' hc)
      exact absurd hb (hmore s' b rest h)
    · cases h
      exact ⟨rfl, rfl⟩
    · cases h

/-! ## 2. Texts of one literal -/

/-- What a level puts around an operand is no literal. -/
theorem yields_stepAt (n : Nat) {l : Nat} (hl : Repeats l) (t : Term) :
    Yields (fun u => ¬ ∃ v, u = .ofLiteral v) (stepAt n l t) := by
  rcases hl with hl | rfl
  · rw [stepAt_of_lt n hl]
    refine .after fun op => .after fun right => .pure ?_
    rintro ⟨v, hv⟩
    cases hv
  · refine .after fun _ => .after fun label => .after fun arguments => ?_
    cases arguments with
    | none =>
      refine .pure ?_
      rintro ⟨v, hv⟩
      cases hv
    | some args =>
      refine .pure ?_
      rintro ⟨v, hv⟩
      cases hv

theorem readerAt_succ_of_literal {n l : Nat} (hl : Repeats l) {v : Literal} {s rest : List Char}
    (h : readerAt n l s = .ok (.ofLiteral v) rest) :
    readerAt n (l + 1) s = .ok (.ofLiteral v) rest := by
  rw [readerAt_of_repeats n hl] at h
  obtain ⟨first, s', hfirst, hrepeat⟩ := exists_of_bind_ok h
  obtain ⟨rfl, rfl⟩ := eq_of_iterate_ok (yields_stepAt n hl) hrepeat ⟨v, rfl⟩
  exact hfirst

/-- **A text that is read as a literal is one operand**: no binary operator is in it. -/
theorem readerAt_of_literal {n : Nat} {v : Literal} {s rest : List Char}
    (h : readerAt n 0 s = .ok (.ofLiteral v) rest) : readerAt n 7 s = .ok (.ofLiteral v) rest := by
  have hlevels : ∀ l ≤ 7, readerAt n l s = .ok (.ofLiteral v) rest := by
    intro l hl
    induction l with
    | zero => exact h
    | succ l ih => exact readerAt_succ_of_literal (.inl (by omega)) (ih (by omega))
  exact hlevels 7 (Nat.le_refl 7)

/-- An operand that does not start with a sign or a parenthesis is an atom with what follows it. -/
theorem access_of_operand {n : Nat} {s rest : List Char} {c : Char} (hc : next? s = some c)
    (hsigns : c ∉ ['!', '-', '+', '(']) {t : Term} (h : readerAt n 7 s = .ok t rest) :
    readerAt n 8 s = .ok t rest := by
  have hne : ∀ d ∈ ['!', '-', '+', '('], next? s ≠ some d := by
    intro d hd heq
    rw [hc] at heq
    exact hsigns (Option.some.inj heq ▸ hd)
  rw [readerAt_seven] at h
  have h := firstOf_ok_of_fails (fails_signed rfl (hne '!' (by decide)) _ _) h
  have h := firstOf_ok_of_fails (fails_signed rfl (hne '-' (by decide)) _ _) h
  have h := firstOf_ok_of_fails (fails_signed rfl (hne '+' (by decide)) _ _) h
  exact firstOf_ok_of_fails (((fails_symbol rfl (hne '(' (by decide))).bind _).bind _) h

/-! ## 3. Quotes -/

/-- A text that starts with the quote is no other reader's. -/
theorem not_fails_quoted {quote : Char} {s : List Char} (h : next? s = some quote) :
    ¬ Fails (quoted quote) s := by
  rintro ⟨fault, hfault⟩
  obtain ⟨cs, hs⟩ : ∃ cs, skipGap s = quote :: cs := by
    cases hs : skipGap s with
    | nil => simp [next?, hs] at h
    | cons c cs => exact ⟨cs, by simp_all [next?]⟩
  simp only [quoted, hs, if_true] at hfault
  split at hfault <;> cases hfault

theorem not_fails_bind {r : Reader α} {f : α → Reader β} {s : List Char} (hr : ¬ Fails r s)
    (hf : ∀ a s', r s = .ok a s' → ¬ Fails (f a) s') : ¬ Fails (r >>= f) s := by
  rintro ⟨fault, hfault⟩
  rw [bind_apply] at hfault
  cases h : r s with
  | ok a s' => exact hf a s' h ⟨fault, by simpa only [h] using hfault⟩
  | error f => exact hr ⟨f, h⟩
  | failure f => simp only [h, reduceCtorEq] at hfault

theorem not_fails_stringLiteral {s : List Char} (h : next? s = some '"') :
    ¬ Fails stringLiteral s := by
  refine not_fails_bind (not_fails_quoted h) fun cs s' _ => ?_
  rintro ⟨fault, hfault⟩
  cases hfault

theorem not_fails_charLiteral {s : List Char} (h : next? s = some '\x27') :
    ¬ Fails charLiteral s := by
  have hhere : ¬ Fails here s := by
    rintro ⟨fault, hfault⟩
    cases hfault
  refine not_fails_bind hhere fun start s' hstart => ?_
  cases hstart
  refine not_fails_bind (not_fails_quoted h) fun cs s' _ => ?_
  rintro ⟨fault, hfault⟩
  split at hfault <;> cases hfault

theorem stringLiteral_ok {s rest : List Char} {v : Literal}
    (h : stringLiteral s = .ok (.ofLiteral v) rest) :
    ∃ cs, quoted '"' s = .ok cs rest ∧ v = .string (String.ofList cs) := by
  obtain ⟨cs, s', hcs, hv⟩ := exists_of_bind_ok h
  cases hv
  exact ⟨cs, hcs, rfl⟩

theorem charLiteral_ok {s rest : List Char} {v : Literal}
    (h : charLiteral s = .ok (.ofLiteral v) rest) :
    ∃ c, quoted '\x27' s = .ok [c] rest ∧ v = .char c := by
  obtain ⟨start, s', hstart, hquoted⟩ := exists_of_bind_ok h
  cases hstart
  obtain ⟨cs, s', hcs, hv⟩ := exists_of_bind_ok hquoted
  split at hv
  · cases hv
    exact ⟨_, hcs, rfl⟩
  · cases hv

/-- **A literal that is read off a quote is what stands between the quotes.** -/
theorem quoted_of_term {quote : Char} (hquote : quote = '"' ∨ quote = '\x27') {s rest : List Char}
    (hs : next? s = some quote) {v : Literal} (h : term s = .ok (.ofLiteral v) rest) :
    ∃ cs, quoted quote s = .ok cs rest ∧
      (v = .string (String.ofList cs) ∨ ∃ c, v = .char c ∧ cs = [c]) := by
  have hoperand : readerAt s.length 7 s = .ok (.ofLiteral v) rest := readerAt_of_literal h
  have hsigns : quote ∉ ['!', '-', '+', '('] := by rcases hquote with rfl | rfl <;> decide
  have hatom : readerAt s.length 9 s = .ok (.ofLiteral v) rest :=
    readerAt_succ_of_literal (.inr rfl) (access_of_operand hs hsigns hoperand)
  have hnumber : Fails number s := fails_number fun c hc => by
    rw [hs] at hc
    cases hc
    rcases hquote with rfl | rfl <;> decide
  have hrest := firstOf_ok_of_fails hnumber hatom
  rcases hquote with rfl | rfl
  · rw [firstOf_of_not_fails (not_fails_stringLiteral hs)] at hrest
    obtain ⟨cs, hcs, hv⟩ := stringLiteral_ok hrest
    exact ⟨cs, hcs, .inl hv⟩
  · have hstring : Fails stringLiteral s := fails_stringLiteral (by rw [hs]; decide)
    have hchar := firstOf_ok_of_fails hstring hrest
    rw [firstOf_of_not_fails (not_fails_charLiteral hs)] at hchar
    obtain ⟨c, hcs, hv⟩ := charLiteral_ok hchar
    exact ⟨[c], hcs, .inr ⟨c, hv, rfl⟩⟩

/-! ## 4. What stands between quotes -/

theorem quoted_of_quotedBody {quote : Char} {s cs rest : List Char}
    (h : quotedBody quote s = some (cs, rest)) :
    ∃ body, s = body ++ quote :: rest ∧ Quoted quote cs body := by
  fun_induction quotedBody quote s generalizing cs with
  | case1 => cases h
  | case2 s =>
    cases h
    exact ⟨[], rfl, .nil⟩
  | case3 => cases h
  | case4 d s hquote ih =>
    obtain ⟨⟨ds, r⟩, hds, heq⟩ := Option.map_eq_some_iff.mp h
    cases heq
    obtain ⟨body, rfl, hbody⟩ := ih hds
    exact ⟨'\\' :: d :: body, rfl, .escaped d hbody⟩
  | case5 c s hquote hslash ih =>
    obtain ⟨⟨ds, r⟩, hds, heq⟩ := Option.map_eq_some_iff.mp h
    cases heq
    obtain ⟨body, rfl, hbody⟩ := ih hds
    exact ⟨c :: body, rfl, .plain hquote hslash hbody⟩

end Reader

/-- **Between quotes every quote and every backslash takes two characters.** -/
theorem Quoted.length_le {quote : Char} (hquote : quote ≠ '\\') {cs body : List Char}
    (h : Quoted quote cs body) : cs.length + cs.count quote + cs.count '\\' ≤ body.length := by
  induction h with
  | nil => simp
  | @plain c cs body hne hslash _ ih =>
    rw [List.count_cons_of_ne hne, List.count_cons_of_ne hslash]
    simp only [List.length_cons]
    omega
  | @escaped c cs body _ ih =>
    simp only [List.length_cons, List.count_cons]
    split <;> split
    · simp_all
    all_goals omega

/-! ## 5. Literals as bodies of lambdas -/

theorem Term.eq_ofLiteral_of_withOwners {param : String} {t : Term} {v : Literal}
    (h : t.withOwners param = .ofLiteral v) : t = .ofLiteral v := by
  cases t with
  | call receiver method arguments =>
    cases receiver with
    | parameter name =>
      rw [withOwners] at h
      split at h <;> cases h
    | _ => cases h
  | constant value type => exact h
  | _ => cases h

namespace Reader

theorem exists_of_readAll_ok {α : Type} {r : Reader α} {text : String} {a : α}
    (h : r.readAll text = .ok a) : ∃ rest, r text.toList = .ok a rest ∧ skipWhite rest = [] := by
  unfold readAll at h
  simp only at h
  split at h
  · rename_i b rest hb
    split at h
    · rename_i hwhite
      cases h
      exact ⟨rest, hb, List.isEmpty_iff.mp hwhite⟩
    · cases h
  · cases h
  · cases h

/-- The body of a lambda is what the text behind the arrow is read as. -/
theorem term_of_lambda {s rest : List Char} {l : Lambda}
    (h : lambda ("p => ".toList ++ s) = .ok l rest) :
    ∃ body, term (' ' :: s) = .ok body rest ∧ l.body = body.withOwners "p" := by
  have hspaced : Spaced ['=', '>'] [' ', '=', '>'] := .blank _
  have hname : name ("p => ".toList ++ s) = .ok "p" ([' ', '=', '>'] ++ ' ' :: s) :=
    name_of_spaced (s := "p".toList) (by decide) (.bare _)
      (isApart_of_spaced hspaced (by decide) (by decide) _)
  have harrow : symbol "=>" ([' ', '=', '>'] ++ ' ' :: s) = .ok () (' ' :: s) :=
    symbol_of_spaced rfl hspaced rfl _
  rw [lambda, bind_of_ok hname, bind_of_ok harrow] at h
  obtain ⟨body, s', hbody, hl⟩ := exists_of_bind_ok h
  cases hl
  exact ⟨body, ok_of_cut_ok hbody, rfl⟩

end Reader

/-- The literal that the body of a lambda is, if it is one. -/
def Lambda.literal? (l : Lambda) : Option Literal :=
  match l.body with
  | .constant value _ => value
  | _ => none

namespace Literal

/-- The literal is read off its text, as the body of a lambda. -/
def ReadsBack (v : Literal) : Prop := Lambda.read ("p => " ++ v.text) = .ok ⟨"p", .ofLiteral v⟩

theorem readsBack_of_isLegible {v : Literal} (h : v.isLegible = true) : v.ReadsBack := by
  have hlambda : (Lambda.mk "p" (.ofLiteral v)).isLegible = true := by
    rw [Lambda.isLegible, Bool.and_eq_true]
    exact ⟨(by decide : isName "p" = true), h⟩
  have hread := Reader.lambda_of_text hlambda (.of_gap (g := []) (by simp) 0)
  rw [List.append_nil] at hread
  exact Reader.readAll_of_gap hread (by simp)

/-- No text at all is read as the least integer of a width. -/
theorem ReadsBack.isSpoken {v : Literal} (h : v.ReadsBack) : v.isSpoken = true := by
  obtain ⟨body, hbody, heq⟩ := Reader.readAll_ok Reader.yields_lambda h
  rw [Term.eq_ofLiteral_of_withOwners heq.symm] at hbody
  exact hbody.isSpoken

/-- **A quoted literal that comes back has a text that spells it.** -/
theorem ReadsBack.quoted {quote : Char} (hquote : quote = '"' ∨ quote = '\x27') {v : Literal}
    {body : List Char} (htext : v.text.toList = quote :: (body ++ [quote])) (h : v.ReadsBack) :
    ∃ cs, Quoted quote cs body ∧ (v = .string (String.ofList cs) ∨ ∃ c, v = .char c ∧ cs = [c]) := by
  obtain ⟨hgap, hwhite⟩ : isGap quote = false ∧ isWhite quote = false := by
    rcases hquote with rfl | rfl <;> decide
  obtain ⟨rest, hlambda, hrest⟩ := Reader.exists_of_readAll_ok h
  rw [String.toList_append, htext] at hlambda
  obtain ⟨t, hterm, ht⟩ := Reader.term_of_lambda hlambda
  obtain rfl := Term.eq_ofLiteral_of_withOwners ht.symm
  have hspaced : Spaced (quote :: (body ++ [quote])) (' ' :: quote :: (body ++ [quote])) := .blank _
  have hskip : skipGap (' ' :: quote :: (body ++ [quote])) = quote :: (body ++ [quote]) := by
    simpa using hspaced.skipGap hgap []
  obtain ⟨cs, hcs, hv⟩ := Reader.quoted_of_term hquote (by rw [next?, hskip]; rfl) hterm
  simp only [Reader.quoted, hskip, if_true] at hcs
  split at hcs
  · rename_i cs' rest' hbody
    cases hcs
    obtain ⟨body', heq, hquoted⟩ := Reader.quoted_of_quotedBody hbody
    -- what follows is white, and the text ends with the quote
    rcases List.eq_nil_or_concat rest with rfl | ⟨init, c, rfl⟩
    · obtain rfl := List.append_cancel_right heq
      exact ⟨cs, hquoted, hv⟩
    · have hend : body ++ [quote] = (body' ++ quote :: init) ++ [c] := by simpa using heq
      have hlast : quote = c := List.singleton_inj.mp (List.append_inj' hend rfl).2
      have hc : isWhite c = true := List.dropWhile_eq_nil_iff.mp hrest c (by simp)
      rw [← hlast, hwhite] at hc
      cases hc
  · cases hcs

theorem length_escapeQuotes (cs : List Char) :
    (escapeQuotes cs).length = cs.length + cs.count '"' := by
  induction cs with
  | nil => rfl
  | cons c cs ih =>
    by_cases hc : c = '"'
    · subst hc
      have hcons : escapeQuotes ('"' :: cs) = '\\' :: '"' :: escapeQuotes cs := rfl
      rw [hcons, List.count_cons_self]
      simp only [List.length_cons]
      omega
    · have hcons : escapeQuotes (c :: cs) = c :: escapeQuotes cs := by simp [escapeQuotes, hc]
      rw [hcons, List.count_cons_of_ne hc]
      simp only [List.length_cons]
      omega

/-- A text with a backslash would need a longer spelling than the one it gets. -/
theorem not_mem_of_readsBack {s : String} (h : (Literal.string s).ReadsBack) : '\\' ∉ s.toList := by
  have htext : (Literal.string s).text.toList = '"' :: (escapeQuotes s.toList ++ ['"']) := by
    simp [text]
  obtain ⟨cs, hquoted, hv⟩ := h.quoted (.inl rfl) htext
  have hs : s.toList = cs := by
    rcases hv with hv | ⟨c, hv, -⟩
    · cases hv
      exact String.toList_ofList
    · cases hv
  rw [hs] at hquoted ⊢
  have hlong := hquoted.length_le (by decide)
  rw [length_escapeQuotes] at hlong
  rw [← List.count_eq_zero]
  omega

/-- A character has no second character to spend. -/
theorem ne_of_readsBack {c : Char} (h : (Literal.char c).ReadsBack) : c ≠ '\x27' ∧ c ≠ '\\' := by
  have htext : (Literal.char c).text.toList = '\x27' :: ([c] ++ ['\x27']) := by simp [text]
  obtain ⟨cs, hquoted, hv⟩ := h.quoted (.inr rfl) htext
  have hcs : cs = [c] := by
    rcases hv with hv | ⟨d, hv, rfl⟩
    · cases hv
    · cases hv
      rfl
  rw [hcs] at hquoted
  have hlong := hquoted.length_le (by decide)
  simp only [List.length_singleton] at hlong
  have hquote : '\x27' ∉ [c] := List.count_eq_zero.mp (by omega)
  have hslash : '\\' ∉ [c] := List.count_eq_zero.mp (by omega)
  exact ⟨fun heq => hquote (by simp [heq]), fun heq => hslash (by simp [heq])⟩

/-- **Which literals come back from their text**: every truth value, every integer but the least of
    its width, exactly the texts without backslash, and every character but backslash and single
    quote. -/
theorem texts_read_back_iff_unescaped (b : Bool) (n : Int32) (k : Int64) (s : String) (c : Char) :
    (Literal.bool b).ReadsBack ∧
      ((Literal.int32 n).ReadsBack ↔ n ≠ Int32.minValue) ∧
      ((Literal.int64 k).ReadsBack ↔ k ≠ Int64.minValue) ∧
      ((Literal.string s).ReadsBack ↔ '\\' ∉ s.toList) ∧
      ((Literal.char c).ReadsBack ↔ c ≠ '\x27' ∧ c ≠ '\\') := by
  refine ⟨readsBack_of_isLegible rfl, ⟨fun h => ?_, fun h => ?_⟩, ⟨fun h => ?_, fun h => ?_⟩,
    ⟨not_mem_of_readsBack, fun h => ?_⟩, ⟨ne_of_readsBack, fun h => ?_⟩⟩
  · exact of_decide_eq_true h.isSpoken
  · exact readsBack_of_isLegible (decide_eq_true h)
  · exact of_decide_eq_true h.isSpoken
  · exact readsBack_of_isLegible (decide_eq_true h)
  · exact readsBack_of_isLegible (decide_eq_true h)
  · exact readsBack_of_isLegible (by simp [isLegible, h.1, h.2])

/-- **Four literals that do not come back**: one is read as a literal of another type, and three are
    not read at all. -/
theorem least_integers_and_escapes_are_lost :
    (¬ (Literal.int32 Int32.minValue).ReadsBack ∧
      (Lambda.read "p => -2147483648").map Lambda.literal? = .ok (some (.int64 (-2147483648)))) ∧
    (¬ (Literal.int64 Int64.minValue).ReadsBack ∧
      (Lambda.read "p => -9223372036854775808L").map Lambda.literal? =
        .error ⟨6, .invalidNumber "9223372036854775808"⟩) ∧
    (¬ (Literal.string "\\").ReadsBack ∧
      (Lambda.read "p => \"\\\"").map Lambda.literal? = .error ⟨5, .unterminated⟩) ∧
    ¬ (Literal.char '\x27').ReadsBack ∧
      (Lambda.read "p => '''").map Lambda.literal? = .error ⟨5, .notOneCharacter⟩ := by
  refine ⟨⟨fun h => ?_, by decide +kernel⟩, ⟨fun h => ?_, by decide +kernel⟩,
    ⟨fun h => ?_, by decide +kernel⟩, fun h => ?_, by decide +kernel⟩
  · have hne : Int32.minValue ≠ Int32.minValue := of_decide_eq_true h.isSpoken
    exact hne rfl
  · have hne : Int64.minValue ≠ Int64.minValue := of_decide_eq_true h.isSpoken
    exact hne rfl
  · exact not_mem_of_readsBack h (by decide)
  · exact (ne_of_readsBack h).1 rfl

end Literal

end EntityQuery
