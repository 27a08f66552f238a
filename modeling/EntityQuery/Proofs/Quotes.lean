import EntityQuery.Proofs.Spelling.Literals

/-!
Texts in quotes are read exactly.

A reader of a quoted text goes forward, one character or an escaped pair at a time, and so knows
whether a quote is escaped. Looking backward from a quote, all there is to see is the run of
backslashes before it. The two agree: the run starts where the reader starts a character of its own,
so that it is paired off from its start.

* `backslashed` -- the text of characters with a backslash before every backslash and every quote;
  `Quoted.backslashed` -- it spells them;
* `slashesBefore`, `Closes` -- a quote with an even number of backslashes right before it;
* `closes_quote`, `closes_plain`, `closes_escape` -- one lemma for each thing a text can start with;
* `Reader.quotedBody_stops` -- **reading stops at the first quote that closes, and only there**;
* `Reader.quotes_are_read_exactly` -- both for the reader of quoted texts.
-/
namespace EntityQuery

open Text

/-! ## 1. Escaping -/

/-- The characters with a backslash before every backslash and every quote. -/
def backslashed (quote : Char) (cs : List Char) : List Char :=
  cs.flatMap fun c => if c = '\\' ∨ c = quote then ['\\', c] else [c]

/-- Backslashes and quotes stand for themselves after a backslash. -/
theorem unescape_of_quote {c : Char} (h : c = '\\' ∨ c = '"' ∨ c = '\x27') :
    Reader.unescape c = c := by
  rcases h with rfl | rfl | rfl <;> rfl

theorem Quoted.backslashed {quote : Char} (hquote : quote = '"' ∨ quote = '\x27') (cs : List Char) :
    Quoted quote cs (backslashed quote cs) := by
  induction cs with
  | nil => exact .nil
  | cons c cs ih =>
    by_cases hc : c = '\\' ∨ c = quote
    · have hsame : Reader.unescape c = c :=
        unescape_of_quote (hc.imp_right fun h => by rw [h]; exact hquote)
      have hescaped := Quoted.escaped c ih
      rw [hsame] at hescaped
      simpa [EntityQuery.backslashed, hc] using hescaped
    · have hplain := Quoted.plain (fun h => hc (.inr h)) (fun h => hc (.inl h)) ih
      simpa [EntityQuery.backslashed, hc] using hplain

/-! ## 2. Quotes that close -/

/-- The number of backslashes right before a place in a text. -/
def slashesBefore (s : List Char) (i : Nat) : Nat :=
  ((s.take i).reverse.takeWhile (· = '\\')).length

/-- The quote stands at the place, after an even number of backslashes. -/
def Closes (quote : Char) (s : List Char) (i : Nat) : Prop :=
  s[i]? = some quote ∧ slashesBefore s i % 2 = 0

instance (quote : Char) (s : List Char) (i : Nat) : Decidable (Closes quote s i) :=
  inferInstanceAs (Decidable (_ ∧ _))

theorem slashesBefore_le (s : List Char) (i : Nat) : slashesBefore s i ≤ (s.take i).length := by
  have hle := (List.takeWhile_sublist (l := (s.take i).reverse) (· = '\\')).length_le
  rwa [List.length_reverse] at hle

/-- A character in front counts only if it is a backslash and nothing but backslashes follow up to
    the place. -/
theorem slashesBefore_cons (c : Char) (s : List Char) (i : Nat) :
    slashesBefore (c :: s) (i + 1) =
      if slashesBefore s i = (s.take i).length then (s.take i).length + (if c = '\\' then 1 else 0)
      else slashesBefore s i := by
  unfold slashesBefore
  rw [List.take_succ_cons, List.reverse_cons, List.takeWhile_append, List.length_reverse]
  split
  · by_cases hc : c = '\\' <;> simp [hc]
  · rfl

theorem slashesBefore_cons_of_ne {c : Char} (hc : c ≠ '\\') (s : List Char) (i : Nat) :
    slashesBefore (c :: s) (i + 1) = slashesBefore s i := by
  rw [slashesBefore_cons, if_neg hc]
  split <;> omega

/-- An escaped pair in front does not change whether the number is even. -/
theorem slashesBefore_escape (d : Char) (s : List Char) (i : Nat) :
    slashesBefore ('\\' :: d :: s) (i + 2) % 2 = slashesBefore s i % 2 := by
  have hle := slashesBefore_le s i
  rw [slashesBefore_cons, List.take_succ_cons, List.length_cons]
  by_cases hd : d = '\\'
  · rw [slashesBefore_cons, if_pos hd, if_pos rfl]
    split <;> split <;> omega
  · -- the run does not reach back over another character
    rw [slashesBefore_cons_of_ne hd]
    split <;> omega

section Closes

variable {quote : Char} {s : List Char}

theorem not_closes_nil (quote : Char) (i : Nat) : ¬ Closes quote [] i := fun h => by
  simp [Closes] at h

theorem closes_quote (quote : Char) (s : List Char) : Closes quote (quote :: s) 0 := ⟨rfl, rfl⟩

theorem closes_plain {c : Char} (hquote : c ≠ quote) (hslash : c ≠ '\\') (i : Nat) :
    Closes quote (c :: s) i ↔ ∃ j, i = j + 1 ∧ Closes quote s j := by
  cases i with
  | zero => simp [Closes, hquote]
  | succ i => simp [Closes, slashesBefore_cons_of_ne hslash]

/-- The second character of an escaped pair has one backslash before it, and so never closes. -/
theorem closes_escape (hquote : quote ≠ '\\') (d : Char) (i : Nat) :
    Closes quote ('\\' :: d :: s) i ↔ ∃ j, i = j + 2 ∧ Closes quote s j := by
  match i with
  | 0 => simp [Closes, hquote.symm]
  | 1 => simp [Closes, slashesBefore]
  | i + 2 => simp [Closes, slashesBefore_escape]

/-- A quote closes after two backslashes, and not after one. -/
example : Closes '"' "\\\\\"".toList 2 ∧ ¬ Closes '"' "\\\"".toList 1 := by
  decide

end Closes

/-! ## 3. Where reading stops -/

/-- The first quote that closes. -/
def ClosesFirst (quote : Char) (s : List Char) (i : Nat) : Prop :=
  Closes quote s i ∧ ∀ j < i, ¬ Closes quote s j

namespace Reader

/-- **Reading stops at the first quote that closes**, and there is none if it does not stop. -/
theorem quotedBody_stops {quote : Char} (hquote : quote ≠ '\\') (s : List Char) :
    (∀ cs rest, quotedBody quote s = some (cs, rest) →
      ∃ i, ClosesFirst quote s i ∧ rest = s.drop (i + 1)) ∧
    (quotedBody quote s = none → ∀ i, ¬ Closes quote s i) := by
  fun_induction quotedBody quote s with
  | case1 => exact ⟨nofun, fun _ i => not_closes_nil quote i⟩
  | case2 s =>
    refine ⟨fun cs rest h => ?_, nofun⟩
    cases h
    exact ⟨0, ⟨closes_quote quote s, fun j hj => absurd hj (Nat.not_lt_zero j)⟩, rfl⟩
  | case3 hne =>
    refine ⟨nofun, fun _ i h => ?_⟩
    -- a backslash at the very end
    match i with
    | 0 => simp [Closes, hne] at h
    | i + 1 => simp [Closes] at h
  | case4 d s hne ih =>
    refine ⟨fun cs rest h => ?_, fun h i hi => ?_⟩
    · obtain ⟨⟨ds, r⟩, hds, heq⟩ := Option.map_eq_some_iff.mp h
      cases heq
      obtain ⟨i, ⟨hi, hfirst⟩, hrest⟩ := ih.1 ds rest hds
      refine ⟨i + 2, ⟨(closes_escape hquote d _).mpr ⟨i, rfl, hi⟩, fun j hj hcloses => ?_⟩, hrest⟩
      obtain ⟨k, rfl, hk⟩ := (closes_escape hquote d j).mp hcloses
      exact hfirst k (by omega) hk
    · obtain ⟨k, rfl, hk⟩ := (closes_escape hquote d i).mp hi
      exact ih.2 (Option.map_eq_none_iff.mp h) k hk
  | case5 c s hne hslash ih =>
    refine ⟨fun cs rest h => ?_, fun h i hi => ?_⟩
    · obtain ⟨⟨ds, r⟩, hds, heq⟩ := Option.map_eq_some_iff.mp h
      cases heq
      obtain ⟨i, ⟨hi, hfirst⟩, hrest⟩ := ih.1 ds rest hds
      refine ⟨i + 1, ⟨(closes_plain hne hslash _).mpr ⟨i, rfl, hi⟩, fun j hj hcloses => ?_⟩, hrest⟩
      obtain ⟨k, rfl, hk⟩ := (closes_plain hne hslash j).mp hcloses
      exact hfirst k (by omega) hk
    · obtain ⟨k, rfl, hk⟩ := (closes_plain hne hslash i).mp hi
      exact ih.2 (Option.map_eq_none_iff.mp h) k hk

section Body

variable {quote : Char} (hgap : isGap quote = false) {s : List Char}

include hgap

theorem skipGap_quote (s : List Char) : skipGap (quote :: s) = quote :: s :=
  List.dropWhile_cons_of_neg (by simp [hgap])

/-- Behind its quote a text is read as its body. -/
theorem quoted_of_body {cs rest : List Char} (h : quotedBody quote s = some (cs, rest)) :
    quoted quote (quote :: s) = .ok cs rest := by
  simp only [quoted, skipGap_quote hgap, if_true, h]

/-- Without an end of the body reading fails, and does so at the quote. -/
theorem quoted_of_no_body (h : quotedBody quote s = none) :
    quoted quote (quote :: s) = .failure ⟨quote :: s, .unterminated⟩ := by
  simp only [quoted, skipGap_quote hgap, if_true, h]

end Body

/-- **Texts in quotes are read exactly.** Whatever the characters and whatever follows, their text
    with backslashes before backslashes and quotes is read as the characters, up to the closing
    quote. And any text behind a quote is read if and only if some quote in it has an even number of
    backslashes right before it; reading then stops at the first such quote, and otherwise fails at
    the opening one. -/
theorem quotes_are_read_exactly {quote : Char} (hquote : quote = '"' ∨ quote = '\x27') :
    (∀ cs rest, quoted quote (quote :: (backslashed quote cs ++ quote :: rest)) = .ok cs rest) ∧
    ∀ s, ((∃ cs rest, quoted quote (quote :: s) = .ok cs rest) ↔ ∃ i, Closes quote s i) ∧
      (∀ cs rest, quoted quote (quote :: s) = .ok cs rest →
        ∃ i, ClosesFirst quote s i ∧ rest = s.drop (i + 1)) ∧
      ((∀ i, ¬ Closes quote s i) →
        quoted quote (quote :: s) = .failure ⟨quote :: s, .unterminated⟩) := by
  obtain ⟨hgap, hslash⟩ : isGap quote = false ∧ quote ≠ '\\' := by
    rcases hquote with rfl | rfl <;> decide
  refine ⟨fun cs rest => ?_, fun s => ?_⟩
  · exact quoted_of_body hgap (quotedBody_of_quoted hslash (.backslashed hquote cs) rest)
  · obtain ⟨hstops, hnever⟩ := quotedBody_stops hslash s
    cases hbody : quotedBody quote s with
    | none =>
      have hnone := hnever hbody
      rw [quoted_of_no_body hgap hbody]
      exact ⟨⟨nofun, fun ⟨i, hi⟩ => absurd hi (hnone i)⟩, nofun, fun _ => rfl⟩
    | some found =>
      obtain ⟨cs, rest⟩ := found
      obtain ⟨i, hfirst, hrest⟩ := hstops cs rest hbody
      rw [quoted_of_body hgap hbody]
      refine ⟨⟨fun _ => ⟨i, hfirst.1⟩, fun _ => ⟨cs, rest, rfl⟩⟩, fun _ _ h => ?_,
        fun hnone => absurd hfirst.1 (hnone i)⟩
      cases h
      exact ⟨i, hfirst, hrest⟩

/-- Of three quotes the first is escaped, and the second stands behind two backslashes. -/
theorem quotes_are_read_exactly_of_three :
    quoted '"' ('"' :: (backslashed '"' "é\\\"".toList ++ '"' :: " \"".toList)) =
      .ok "é\\\"".toList " \"".toList ∧
    backslashed '"' "é\\\"".toList = "é\\\\\\\"".toList ∧
    ∃ i, ClosesFirst '"' "a\\\"b\\\\\" c\"".toList i ∧ i = 6 ∧
      quoted '"' ('"' :: "a\\\"b\\\\\" c\"".toList) = .ok "a\"b\\".toList (" c\"".toList) := by
  obtain ⟨hback, hany⟩ := @quotes_are_read_exactly '"' (.inl rfl)
  obtain ⟨hiff, hfirst, -⟩ := hany "a\\\"b\\\\\" c\"".toList
  have hread : quoted '"' ('"' :: "a\\\"b\\\\\" c\"".toList) =
      .ok "a\"b\\".toList " c\"".toList := by
    decide +kernel
  obtain ⟨i, hi, hrest⟩ := hfirst _ _ hread
  refine ⟨hback _ _, by decide +kernel, i, hi, ?_, hread⟩
  have hlength := congrArg List.length hrest
  rw [List.length_drop] at hlength
  have hsizes : (" c\"".toList).length = 3 ∧ ("a\\\"b\\\\\" c\"".toList).length = 10 := by
    decide +kernel
  omega

end Reader

end EntityQuery
