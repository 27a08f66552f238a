import EntityQuery.Reader.Chain

/-!
How a text goes on, and what readers make of its first token.

* `Spaced` -- a token with an optional gap before it, which is how every reader takes its tokens;
* `next?` -- the first character of a text after its gap: a symbol that starts with another one is
  not there (`Reader.fails_symbol`);
* `isApart` -- the text goes on with nothing that could belong to a name or a number before it;
* `Reader.Fails` -- a reader has an error, so that another one may try;
* `Reader.firstOf_of_fails` -- **of several readers the first without an error is taken**;
* `Reader.Arrives` -- a repeated step gets from one value and text to another one. The number of
  repetitions left does not show in it, so that two such ways can be put together.
-/
namespace EntityQuery

open Text

/-! ## 1. Tokens after a gap -/

/-- A token after an optional gap. -/
def Spaced (token s : List Char) : Prop := ∃ g, (∀ c ∈ g, isGap c = true) ∧ s = g ++ token

/-- The first character that is not in the gap. -/
def next? (s : List Char) : Option Char := (skipGap s).head?

theorem Spaced.bare (token : List Char) : Spaced token token := ⟨[], by simp, rfl⟩

theorem Spaced.afterBlank {token s : List Char} (h : Spaced token s) : Spaced token (' ' :: s) := by
  obtain ⟨g, hg, rfl⟩ := h
  refine ⟨' ' :: g, fun c hc => ?_, rfl⟩
  rcases List.mem_cons.mp hc with rfl | hc
  · rfl
  · exact hg c hc

theorem Spaced.blank (token : List Char) : Spaced token (' ' :: token) := (bare token).afterBlank

theorem Spaced.length_le {token s : List Char} (h : Spaced token s) : token.length ≤ s.length := by
  obtain ⟨g, -, rfl⟩ := h
  simp

theorem Spaced.skipGap {c : Char} {cs s : List Char} (h : Spaced (c :: cs) s)
    (hc : isGap c = false) (rest : List Char) : skipGap (s ++ rest) = c :: cs ++ rest := by
  obtain ⟨g, hg, rfl⟩ := h
  rw [List.append_assoc, Text.skipGap, List.dropWhile_append_of_pos hg, List.cons_append,
    List.dropWhile_cons_of_neg (by simp [hc])]

theorem Spaced.next? {c : Char} {cs s : List Char} (h : Spaced (c :: cs) s)
    (hc : isGap c = false) (rest : List Char) : next? (s ++ rest) = some c := by
  rw [EntityQuery.next?, h.skipGap hc]
  rfl

/-- What starts a text starts it also with more behind. -/
theorem next?_append {s : List Char} {c : Char} (h : next? s = some c) (rest : List Char) :
    next? (s ++ rest) = some c := by
  obtain ⟨cs, hcs⟩ : ∃ cs, skipGap s = c :: cs := by
    cases hs : skipGap s with
    | nil => simp [next?, hs] at h
    | cons d ds =>
      have hd : d = c := by simpa [next?, hs] using h
      exact ⟨ds, by rw [hd]⟩
  have hne : (s.dropWhile isGap).isEmpty = false := by
    rw [show s.dropWhile isGap = c :: cs from hcs]
    rfl
  rw [next?, skipGap, List.dropWhile_append, hne, show s.dropWhile isGap = c :: cs from hcs]
  rfl

/-! ## 2. Names -/

/-- A text that the reader of names takes whole. -/
def isName (n : String) : Bool :=
  match n.toList with
  | [] => false
  | c :: cs => isNameStart c && cs.all isNamePart

/-- The names that stand for something else than a parameter. -/
def isKeyword (n : String) : Bool := n = "true" || n = "false" || n = "null" || n = "new"

/-- Nothing comes next that could belong to a name or a number right before. -/
def isApart : List Char → Bool
  | [] => true
  | c :: rest => !isNamePart c && !(c = '.' && rest.head?.any Char.isDigit)

theorem isGap_cases {c : Char} (h : isGap c = true) : c = ' ' ∨ c = '\t' ∨ c = '\n' ∨ c = '\r' := by
  simpa [isGap, or_assoc] using h

theorem isNamePart_of_isGap {c : Char} (h : isGap c = true) : isNamePart c = false := by
  rcases isGap_cases h with rfl | rfl | rfl | rfl <;> decide

theorem isNamePart_of_isNameStart {c : Char} (h : isNameStart c = true) : isNamePart c = true := by
  simp only [isNameStart, Bool.or_eq_true] at h
  rcases h with h | h <;> simp [isNamePart, h]

theorem isGap_of_isNameStart {c : Char} (h : isNameStart c = true) : isGap c = false := by
  cases hc : isGap c with
  | false => rfl
  | true =>
    have hpart : isNamePart c = false := isNamePart_of_isGap hc
    rw [isNamePart_of_isNameStart h] at hpart
    cases hpart

theorem isName_cons {n : String} (h : isName n = true) :
    ∃ c cs, n.toList = c :: cs ∧ isNameStart c = true ∧ ∀ d ∈ cs, isNamePart d = true := by
  unfold isName at h
  split at h
  · cases h
  · rename_i c cs hn
    simp only [Bool.and_eq_true, List.all_eq_true] at h
    exact ⟨c, cs, hn, h.1, h.2⟩

theorem isNamePart_of_isApart {s : List Char} (h : isApart s = true) :
    ∀ c ∈ s.head?, isNamePart c = false := by
  intro c hc
  cases s with
  | nil => cases hc
  | cons d s =>
    obtain rfl : d = c := by simpa using hc
    simp only [isApart, Bool.and_eq_true, Bool.not_eq_true'] at h
    exact h.1

/-- Characters of a kind, up to one of another kind. -/
theorem span_exact {kind : Char → Bool} {body rest : List Char} (hbody : ∀ c ∈ body, kind c = true)
    (hrest : ∀ c ∈ rest.head?, kind c = false) :
    (body ++ rest).takeWhile kind = body ∧ (body ++ rest).dropWhile kind = rest := by
  rw [List.takeWhile_append_of_pos hbody, List.dropWhile_append_of_pos hbody]
  cases rest with
  | nil => simp
  | cons c rest => simp [hrest c rfl]

/-- A gap or a symbol with more behind it is apart from what stands before. -/
theorem isApart_of_spaced {c : Char} {cs s : List Char} (h : Spaced (c :: cs) s)
    (hc : isNamePart c = false) (hpoint : c ≠ '.') (rest : List Char) :
    isApart (s ++ rest) = true := by
  obtain ⟨g, hg, rfl⟩ := h
  cases g with
  | nil => simp [isApart, hc, hpoint]
  | cons d g =>
    have hd : isGap d = true := hg d List.mem_cons_self
    have hne : d ≠ '.' := by
      rintro rfl
      cases hd
    simp [isApart, isNamePart_of_isGap hd, hne]

/-- A point is apart from what stands before it if no digit follows. -/
theorem isApart_of_point {s : List Char} (h : Spaced ['.'] s) {rest : List Char}
    (hrest : rest.head?.any Char.isDigit = false) : isApart (s ++ rest) = true := by
  obtain ⟨g, hg, rfl⟩ := h
  cases g with
  | nil => simpa [isApart] using ⟨by decide, hrest⟩
  | cons d g =>
    have hd : isGap d = true := hg d List.mem_cons_self
    have hne : d ≠ '.' := by
      rintro rfl
      cases hd
    simp [isApart, isNamePart_of_isGap hd, hne]

namespace Reader

/-! ## 3. Errors -/

variable {α β : Type}

/-- The reader has an error on the text. -/
def Fails (r : Reader α) (s : List Char) : Prop := ∃ fault, r s = .error fault

theorem Fails.bind {r : Reader α} {s : List Char} (h : Fails r s) (f : α → Reader β) :
    Fails (r >>= f) s := by
  obtain ⟨fault, h⟩ := h
  exact ⟨fault, by rw [bind_apply, h]⟩

/-- Something is read, and then comes an error. -/
theorem Fails.after {r : Reader α} {s rest : List Char} {a : α} (h : r s = .ok a rest)
    {f : α → Reader β} (hf : Fails (f a) rest) : Fails (r >>= f) s := by
  obtain ⟨fault, hf⟩ := hf
  exact ⟨fault, by rw [bind_apply, h]; exact hf⟩

theorem bind_of_ok {r : Reader α} {s rest : List Char} {a : α} (h : r s = .ok a rest)
    (f : α → Reader β) : (r >>= f) s = f a rest := by
  rw [bind_apply, h]

theorem cut_of_ok {r : Reader α} {s rest : List Char} {a : α} (h : r s = .ok a rest) :
    r.cut s = .ok a rest := by
  rw [cut, h]

theorem optional_of_ok {r : Reader α} {s rest : List Char} {a : α} (h : r s = .ok a rest) :
    r.optional s = .ok (some a) rest := by
  rw [optional, h]

theorem optional_of_fails {r : Reader α} {s : List Char} (h : Fails r s) :
    r.optional s = .ok none s := by
  obtain ⟨fault, h⟩ := h
  rw [optional, h]

theorem map_of_ok {r : Reader α} {s rest : List Char} {a : α} (h : r s = .ok a rest) (f : α → β) :
    (f <$> r) s = .ok (f a) rest := bind_of_ok h _

/-! ## 4. The first of several readers -/

/-- Only the outcome of the first reader counts. -/
theorem firstOf_congr {r r' : Reader α} {s : List Char} (h : r s = r' s) (rs : List (Reader α)) :
    firstOf r rs s = firstOf r' rs s := by
  induction rs generalizing r r' with
  | nil => exact h
  | cons q rs ih =>
    have hq : orElse r q s = orElse r' q s := by simp only [orElse, h]
    exact ih hq

theorem firstOf_of_ok {r : Reader α} {s rest : List Char} {a : α} (h : r s = .ok a rest)
    (rs : List (Reader α)) : firstOf r rs s = .ok a rest := by
  induction rs generalizing r with
  | nil => exact h
  | cons q rs ih => exact ih (by rw [orElse, h])

/-- Which error a reader has does not count where a later one has none. -/
theorem firstOf_of_fails_both {r r' : Reader α} {s rest : List Char} {a : α} (hr : Fails r s)
    (hr' : Fails r' s) {rs : List (Reader α)} (h : firstOf r rs s = .ok a rest) :
    firstOf r' rs s = .ok a rest := by
  obtain ⟨f, hf⟩ := hr
  obtain ⟨f', hf'⟩ := hr'
  induction rs generalizing r r' f f' with
  | nil =>
    have hbad : (.error f : Outcome α) = .ok a rest := hf.symm.trans h
    cases hbad
  | cons q rs ih =>
    cases hq : q s with
    | ok b rest' =>
      have hsame : orElse r q s = orElse r' q s := by simp only [orElse, hf, hf', hq]
      exact (firstOf_congr hsame rs).symm.trans h
    | failure g =>
      have hsame : orElse r q s = orElse r' q s := by simp only [orElse, hf, hf', hq]
      exact (firstOf_congr hsame rs).symm.trans h
    | error g =>
      have hboth : orElse r q s = .error (f.further g) := by simp only [orElse, hf, hq]
      have hboth' : orElse r' q s = .error (f'.further g) := by simp only [orElse, hf', hq]
      exact ih h _ hboth _ hboth'

/-- **A reader with an error leaves the text to those after it.** -/
theorem firstOf_of_fails {r q : Reader α} {s rest : List Char} {a : α} (hr : Fails r s)
    {rs : List (Reader α)} (h : firstOf q rs s = .ok a rest) :
    firstOf r (q :: rs) s = .ok a rest := by
  obtain ⟨f, hf⟩ := hr
  cases hq : q s with
  | ok b rest' =>
    have hsame : q s = orElse r q s := by simp only [orElse, hf, hq]
    exact (firstOf_congr hsame rs).symm.trans h
  | failure g =>
    have hsame : q s = orElse r q s := by simp only [orElse, hf, hq]
    exact (firstOf_congr hsame rs).symm.trans h
  | error g =>
    have hboth : Fails (orElse r q) s := ⟨f.further g, by simp only [orElse, hf, hq]⟩
    exact firstOf_of_fails_both ⟨g, hq⟩ hboth h

theorem fails_firstOf {r : Reader α} {s : List Char} (hr : Fails r s) {rs : List (Reader α)}
    (hrs : ∀ q ∈ rs, Fails q s) : Fails (firstOf r rs) s := by
  induction rs generalizing r with
  | nil => exact hr
  | cons q rs ih =>
    obtain ⟨f, hf⟩ := hr
    obtain ⟨g, hg⟩ := hrs q List.mem_cons_self
    have hboth : Fails (orElse r q) s := ⟨f.further g, by simp only [orElse, hf, hg]⟩
    exact ih hboth fun q' hq' => hrs q' (List.mem_cons_of_mem q hq')

/-! ## 5. Symbols and names -/

theorem stripChars?_append (token s : List Char) : stripChars? token (token ++ s) = some s := by
  induction token with
  | nil => rfl
  | cons c token ih => simpa [stripChars?] using ih

theorem symbol_of_spaced {token : String} {c : Char} {cs s : List Char}
    (htoken : token.toList = c :: cs) (h : Spaced (c :: cs) s) (hc : isGap c = false)
    (rest : List Char) : symbol token (s ++ rest) = .ok () rest := by
  simp only [symbol, h.skipGap hc, htoken, stripChars?_append]

/-- **A symbol that starts with another character than the text is not there.** -/
theorem fails_symbol {token : String} {c : Char} {cs s : List Char}
    (htoken : token.toList = c :: cs) (h : next? s ≠ some c) : Fails (symbol token) s := by
  refine ⟨⟨skipGap s, .unexpected .symbol⟩, ?_⟩
  have hnone : stripChars? token.toList (skipGap s) = none := by
    rw [htoken]
    cases hs : skipGap s with
    | nil => rfl
    | cons d ds =>
      have hne : c ≠ d := by
        rintro rfl
        exact h (by simp [next?, hs])
      simp [stripChars?, hne]
  simp only [symbol, hnone]

theorem name_of_spaced {n : String} {s : List Char} (hn : isName n = true)
    (h : Spaced n.toList s) {rest : List Char} (hrest : isApart rest = true) :
    name (s ++ rest) = .ok n rest := by
  obtain ⟨c, cs, hcons, hc, hcs⟩ := isName_cons hn
  rw [hcons] at h
  obtain ⟨htake, hdrop⟩ := span_exact hcs (isNamePart_of_isApart hrest)
  simp only [name, h.skipGap (isGap_of_isNameStart hc), List.cons_append, hc, if_true, htake, hdrop]
  rw [← hcons, String.ofList_toList]

/-- No name starts where the text goes on with something else. -/
theorem fails_name {s : List Char} (h : ∀ c ∈ next? s, isNameStart c = false) : Fails name s := by
  cases hs : skipGap s with
  | nil => exact ⟨⟨[], .unexpected .name⟩, by simp only [name, hs]⟩
  | cons c cs =>
    have hc : isNameStart c = false := h c (by simp [next?, hs])
    exact ⟨⟨c :: cs, .unexpected .name⟩, by simp [name, hs, hc]⟩

/-! ## 6. Repetition -/

/-- From one value and text a repeated step gets to another value and text. -/
def Arrives (step : α → Reader α) (a : α) (s : List Char) (b : α) (rest : List Char) : Prop :=
  ∀ n, s.length ≤ n → ∃ m, rest.length ≤ m ∧
    iterateAtMost step n a s = iterateAtMost step m b rest

variable {step : α → Reader α} {a b c : α} {s rest rest' : List Char}

theorem Arrives.refl (step : α → Reader α) (a : α) (s : List Char) : Arrives step a s a s :=
  fun n hn => ⟨n, hn, rfl⟩

theorem Arrives.trans (h : Arrives step a s b rest) (h' : Arrives step b rest c rest') :
    Arrives step a s c rest' := by
  intro n hn
  obtain ⟨m, hm, heq⟩ := h n hn
  obtain ⟨m', hm', heq'⟩ := h' m hm
  exact ⟨m', hm', heq.trans heq'⟩

/-- One step that reads something. -/
theorem Arrives.single (h : step a s = .ok b rest) (hlength : rest.length < s.length) :
    Arrives step a s b rest := by
  intro n hn
  obtain ⟨m, rfl⟩ : ∃ m, n = m + 1 := ⟨n - 1, by omega⟩
  exact ⟨m, by omega, by simp only [iterateAtMost, h]⟩

/-- Where the step has an error the value stays. -/
theorem Arrives.iterate (h : Arrives step a s b rest) (hend : Fails (step b) rest) :
    iterate step a s = .ok b rest := by
  obtain ⟨m, -, heq⟩ := h s.length (Nat.le_refl _)
  obtain ⟨fault, hend⟩ := hend
  rw [Reader.iterate, heq]
  cases m with
  | zero => rfl
  | succ m => simp only [iterateAtMost, hend]

/-! ## 7. Whole texts -/

theorem dropWhile_all {kind : Char → Bool} {s : List Char} (h : ∀ c ∈ s, kind c = true) :
    s.dropWhile kind = [] := by
  rw [← List.append_nil s, List.dropWhile_append_of_pos h]
  rfl

/-- A gap at the end of a text does not count. -/
theorem readAll_of_gap {r : Reader α} {text : String} {g : List Char}
    (h : r text.toList = .ok a g) (hg : ∀ c ∈ g, isGap c = true) : r.readAll text = .ok a := by
  have hwhite : skipWhite g = [] :=
    dropWhile_all fun c hc => isWhite_of_isGap (hg c hc)
  simp only [readAll, h, hwhite]
  rfl

end Reader

end EntityQuery
