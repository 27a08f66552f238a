import EntityQuery.Proofs.Spelling.Tokens

/-!
How literals are spelled, and that they are read as such.

* `Quoted` -- the characters between two quotes: each stands for itself, or after a backslash for
  what it is escaped to;
* `Literal.Spelled` -- a literal and the characters of its token;
* `Reader.number_of_spaced`, `Reader.stringLiteral_of_spaced`, `Reader.charLiteral_of_spaced` --
  **a literal's token is read as the literal**, whatever stands behind it, as long as that cannot
  belong to the token.
-/
namespace EntityQuery

open Text

/-! ## 1. Digits -/

theorem toNat_of_isDigit {c : Char} (h : c.isDigit = true) : 48 ≤ c.toNat ∧ c.toNat ≤ 57 := by
  simp only [Char.isDigit, ge_iff_le, Bool.and_eq_true, decide_eq_true_eq, UInt32.le_iff_toNat_le] at h
  exact h

theorem isNamePart_of_isDigit {c : Char} (h : c.isDigit = true) : isNamePart c = true := by
  have hascii : c.toNat < 0x80 := by
    have := toNat_of_isDigit h
    omega
  simp [isNamePart, isNumeral, hascii, h]

theorem isNameStart_of_isDigit {c : Char} (h : c.isDigit = true) : isNameStart c = false := by
  have hbounds := toNat_of_isDigit h
  have hascii : c.toNat < 0x80 := by omega
  have hunderscore : c ≠ '_' := by
    rintro rfl
    cases h
  have hletter : c.isAlpha =
      (decide (65 ≤ c.val ∧ c.val ≤ 90) || (decide (97 ≤ c.val) && decide (c.val ≤ 122))) := rfl
  have halpha : c.isAlpha = false := by
    cases hc : c.isAlpha with
    | false => rfl
    | true =>
      simp only [hletter, Bool.or_eq_true, Bool.and_eq_true, decide_eq_true_eq,
        UInt32.le_iff_toNat_le] at hc
      have hrange : (65 ≤ c.toNat ∧ c.toNat ≤ 90) ∨ (97 ≤ c.toNat ∧ c.toNat ≤ 122) := hc
      omega
  simp [isNameStart, isLetter_of_lt hascii, halpha, hunderscore]

theorem isGap_of_isDigit {c : Char} (h : c.isDigit = true) : isGap c = false := by
  cases hc : isGap c with
  | false => rfl
  | true =>
    have hpart : isNamePart c = false := isNamePart_of_isGap hc
    rw [isNamePart_of_isDigit h] at hpart
    cases hpart

/-- The digits of a number, and its value again. -/
theorem digitsValue_toDigits (n : Nat) : digitsValue (Nat.toDigits 10 n) = n :=
  Nat.ofDigitChars_ten_toDigits

theorem isDigit_of_mem_toDigits {n : Nat} : ∀ c ∈ Nat.toDigits 10 n, c.isDigit = true :=
  fun _ hc => Nat.isDigit_of_mem_toDigits (by decide) (by decide) hc

/-! ## 2. Spellings -/

/-- The characters that a quoted text stands for, and the text. -/
inductive Quoted (quote : Char) : List Char → List Char → Prop where
  | nil : Quoted quote [] []
  | plain {c : Char} {cs body : List Char} (hquote : c ≠ quote) (hslash : c ≠ '\\')
      (h : Quoted quote cs body) : Quoted quote (c :: cs) (c :: body)
  | escaped (c : Char) {cs body : List Char} (h : Quoted quote cs body) :
      Quoted quote (Reader.unescape c :: cs) ('\\' :: c :: body)

/-- A literal and the characters of its token. A minus is no part of it. -/
inductive Literal.Spelled : Literal → List Char → Prop where
  | bool (b : Bool) : Spelled (.bool b) (if b then "true" else "false").toList
  | int32 {n : Nat} (h : n < twoPow 31) : Spelled (.int32 (Int32.ofNat n)) (Nat.toDigits 10 n)
  | int64 {n : Nat} (h : n < twoPow 63) :
      Spelled (.int64 (Int64.ofNat n)) (Nat.toDigits 10 n ++ ['L'])
  | string {cs body : List Char} (h : Quoted '"' cs body) :
      Spelled (.string (String.ofList cs)) ('"' :: (body ++ ['"']))
  | char {c : Char} {body : List Char} (h : Quoted '\x27' [c] body) :
      Spelled (.char c) ('\x27' :: (body ++ ['\x27']))

/-- A number of 32 bits that is not negative, by its digits. -/
theorem int32_of_nonneg {n : Int32} (h : 0 ≤ n.toInt) :
    n.toInt.toNat < twoPow 31 ∧ Int32.ofNat n.toInt.toNat = n := by
  have hlt : n.toInt.toNat < twoPow 31 := by
    have hbound : n.toInt < 2 ^ 31 := n.toInt_lt
    have hpow : twoPow 31 = 2147483648 := rfl
    omega
  refine ⟨hlt, Int32.toInt_inj.mp ?_⟩
  rw [Int32.toInt_ofNat_of_lt hlt]
  omega

/-- A number of 64 bits that is not negative, by its digits. -/
theorem int64_of_nonneg {n : Int64} (h : 0 ≤ n.toInt) :
    n.toInt.toNat < twoPow 63 ∧ Int64.ofNat n.toInt.toNat = n := by
  have hlt : n.toInt.toNat < twoPow 63 := by
    have hbound : n.toInt < 2 ^ 63 := n.toInt_lt
    have hpow : twoPow 63 = 9223372036854775808 := rfl
    omega
  refine ⟨hlt, Int64.toInt_inj.mp ?_⟩
  rw [Int64.toInt_ofNat_of_lt hlt]
  omega

namespace Reader

/-! ## 3. Numbers -/

theorem fractionDigits_of_isApart {s : List Char} (h : isApart s = true) :
    fractionDigits s = (none, s) := by
  cases s with
  | nil => rfl
  | cons c s =>
    by_cases hc : c = '.'
    · subst hc
      have hdigit : s.head?.any Char.isDigit = false := by
        simp only [isApart, Bool.and_eq_true] at h
        simpa using h.2
      have hnone : s.takeWhile Char.isDigit = [] := by
        cases s with
        | nil => rfl
        | cons d s =>
          have hd : d.isDigit = false := by simpa using hdigit
          simp [hd]
      simp [fractionDigits, hnone]
    · simp [fractionDigits, hc]

theorem numberSuffix_of_isApart {s : List Char} (h : isApart s = true) :
    numberSuffix s = (none, s) := by
  cases s with
  | nil => rfl
  | cons c s =>
    have hpart : isNamePart c = false := isNamePart_of_isApart h c rfl
    have hsuffix : c ∉ "LlMmDdFf".toList := by
      intro hmem
      have hall : "LlMmDdFf".toList.all isNamePart = true := by decide
      rw [List.all_eq_true.mp hall c hmem] at hpart
      cases hpart
    simp only [numberSuffix, if_neg hsuffix]

/-- Digits and a suffix, of which the first reader of either stops at its end. -/
theorem number_of_digits {ds suffixText s rest : List Char} {suffix : Option Char} {v : Literal}
    (hds : ∀ d ∈ ds, d.isDigit = true) (hne : ds ≠ []) (h : Spaced (ds ++ suffixText) s)
    (hstop : ∀ c ∈ (suffixText ++ rest).head?, c.isDigit = false)
    (hfraction : fractionDigits (suffixText ++ rest) = (none, suffixText ++ rest))
    (hsuffix : numberSuffix (suffixText ++ rest) = (suffix, rest))
    (hv : Literal.ofNumber? ds none suffix = some v) :
    number (s ++ rest) = .ok (.ofLiteral v) rest := by
  obtain ⟨d, ds', rfl⟩ := List.exists_cons_of_ne_nil hne
  have hgap : isGap d = false := isGap_of_isDigit (hds d List.mem_cons_self)
  have hskip : skipGap (s ++ rest) = (d :: ds') ++ (suffixText ++ rest) := by
    rw [← List.append_assoc]
    exact h.skipGap hgap rest
  obtain ⟨htake, hdrop⟩ := span_exact hds hstop
  have hsome : (d :: ds').isEmpty = false := rfl
  simp only [number, hskip, htake, hdrop, hsome, hfraction, hsuffix, hv]
  rfl

theorem ofNumber?_int32 {n : Nat} (h : n < twoPow 31) :
    Literal.ofNumber? (Nat.toDigits 10 n) none none = some (.int32 (Int32.ofNat n)) := by
  simp only [Literal.ofNumber?, int32OfDigits?, digitsValue_toDigits, h, if_true]
  rfl

theorem ofNumber?_int64 {n : Nat} (h : n < twoPow 63) :
    Literal.ofNumber? (Nat.toDigits 10 n) none (some 'l') = some (.int64 (Int64.ofNat n)) := by
  simp only [Literal.ofNumber?, int64OfDigits?, digitsValue_toDigits, h, if_true]
  rfl

/-- **Digits are read as the 32-bit integer that they spell.** -/
theorem number_of_int32 {n : Nat} (hn : n < twoPow 31) {s rest : List Char}
    (h : Spaced (Nat.toDigits 10 n) s) (hrest : isApart rest = true) :
    number (s ++ rest) = .ok (.ofLiteral (.int32 (Int32.ofNat n))) rest := by
  have hstop : ∀ c ∈ rest.head?, c.isDigit = false := by
    intro c hc
    cases hdigit : c.isDigit with
    | false => rfl
    | true =>
      have hpart : isNamePart c = false := isNamePart_of_isApart hrest c hc
      rw [isNamePart_of_isDigit hdigit] at hpart
      cases hpart
  have h' : Spaced (Nat.toDigits 10 n ++ []) s := by simpa using h
  exact number_of_digits isDigit_of_mem_toDigits Nat.toDigits_ne_nil h' hstop
    (fractionDigits_of_isApart hrest) (numberSuffix_of_isApart hrest) (ofNumber?_int32 hn)

/-- **Digits with the mark of 64-bit integers are read as one.** The mark ends the number. -/
theorem number_of_int64 {n : Nat} (hn : n < twoPow 63) {s : List Char}
    (h : Spaced (Nat.toDigits 10 n ++ ['L']) s) (rest : List Char) :
    number (s ++ rest) = .ok (.ofLiteral (.int64 (Int64.ofNat n))) rest := by
  have hstop : ∀ c ∈ (['L'] ++ rest).head?, c.isDigit = false := by
    intro c hc
    obtain rfl : 'L' = c := by simpa using hc
    rfl
  exact number_of_digits isDigit_of_mem_toDigits Nat.toDigits_ne_nil h hstop rfl rfl
    (ofNumber?_int64 hn)

theorem fails_number {s : List Char} (h : ∀ c ∈ next? s, c.isDigit = false) : Fails number s := by
  refine ⟨⟨skipGap s, .unexpected .digit⟩, ?_⟩
  have hnone : (skipGap s).takeWhile Char.isDigit = [] := by
    cases hs : skipGap s with
    | nil => rfl
    | cons c cs =>
      have hc : c.isDigit = false := h c (by simp [next?, hs])
      simp [hc]
  simp [number, hnone]

/-! ## 4. Texts and characters -/

theorem quotedBody_of_quoted {quote : Char} (hquote : quote ≠ '\\') {cs body : List Char}
    (h : Quoted quote cs body) (rest : List Char) :
    quotedBody quote (body ++ quote :: rest) = some (cs, rest) := by
  induction h with
  | nil =>
    rw [List.nil_append, quotedBody.eq_def]
    simp
  | plain hne hslash _ ih =>
    rw [List.cons_append, quotedBody.eq_def]
    simp [hne, hslash, ih]
  | escaped c _ ih => simp [quotedBody, hquote.symm, ih]

theorem quoted_of_spaced {quote : Char} (hquote : quote ≠ '\\') (hgap : isGap quote = false)
    {cs body s : List Char} (hbody : Quoted quote cs body)
    (h : Spaced (quote :: (body ++ [quote])) s) (rest : List Char) :
    quoted quote (s ++ rest) = .ok cs rest := by
  have hskip : skipGap (s ++ rest) = quote :: (body ++ quote :: rest) := by
    rw [h.skipGap hgap]
    simp
  simp only [quoted, hskip, if_true, quotedBody_of_quoted hquote hbody]

theorem stringLiteral_of_spaced {cs body s : List Char} (hbody : Quoted '"' cs body)
    (h : Spaced ('"' :: (body ++ ['"'])) s) (rest : List Char) :
    stringLiteral (s ++ rest) = .ok (.ofLiteral (.string (String.ofList cs))) rest :=
  bind_of_ok (quoted_of_spaced (by decide) (by decide) hbody h rest) _

theorem charLiteral_of_spaced {c : Char} {body s : List Char} (hbody : Quoted '\x27' [c] body)
    (h : Spaced ('\x27' :: (body ++ ['\x27'])) s) (rest : List Char) :
    charLiteral (s ++ rest) = .ok (.ofLiteral (.char c)) rest :=
  bind_of_ok (quoted_of_spaced (by decide) (by decide) hbody h rest) _

theorem fails_quoted {quote : Char} {s : List Char} (h : next? s ≠ some quote) :
    Fails (quoted quote) s := by
  refine ⟨⟨skipGap s, .missing quote⟩, ?_⟩
  cases hs : skipGap s with
  | nil => simp only [quoted, hs]
  | cons c cs =>
    have hc : c ≠ quote := by
      rintro rfl
      exact h (by simp [next?, hs])
    simp only [quoted, hs, if_neg hc]

theorem fails_stringLiteral {s : List Char} (h : next? s ≠ some '"') : Fails stringLiteral s :=
  (fails_quoted h).bind _

theorem fails_charLiteral {s : List Char} (h : next? s ≠ some '\x27') : Fails charLiteral s :=
  (fails_quoted h).bind _

end Reader

end EntityQuery
