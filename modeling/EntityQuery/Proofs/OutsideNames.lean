import EntityQuery.Proofs.Unambiguous

/-!
What lies outside the names of a text.

A text is inside a name or outside of it by its double quotes alone, and a machine that reads tokens
knows the same from its state.

* `OccursOutside` -- characters in a row, outside double quotes;
* `Lexer.step_cases` -- all that a character can do to the machine;
* `Lexer.inside_step`, `Lexer.inside_scan` -- **the machine is inside a name where the text is
  inside quotes**, for one character and for many;
* `Token.start_of_occurs`, `Token.negate_of_occurs` -- so characters outside are those of tokens.
-/
namespace EntityQuery

/-- The characters stand in the text one after another, outside double quotes. -/
def OccursOutside (word text : List Char) : Prop :=
  ∃ before after, text = before ++ (word ++ after) ∧ insideAfter false before = false

namespace Lexer

/-- Has a name been begun? -/
def inside : Lexer → Bool
  | .quoted _ => true
  | _ => false

variable {l next : Lexer} {c : Char} {r : List Token × Lexer}

theorem inside_of_finish {done : List Token} (h : l.finish = some done) : l.inside = false := by
  cases l with
  | quoted name => cases h
  | _ => rfl

/-- What a character does: it makes the token that has been begun longer, or it ends it and begins
    something itself. -/
theorem step_cases (h : l.step c = some r) :
    (∃ next, l.extend? c = some next ∧ r = ([], next)) ∨
      ∃ done q, l.extend? c = none ∧ l.finish = some done ∧ start c = some q ∧
        r = (done ++ q.1, q.2) := by
  unfold step at h
  split at h
  · rename_i next hnext
    exact Or.inl ⟨next, hnext, (Option.some.inj h).symm⟩
  · rename_i hnext
    obtain ⟨done, hdone, h⟩ := Option.bind_eq_some_iff.mp h
    obtain ⟨q, hq, h⟩ := Option.map_eq_some_iff.mp h
    exact Or.inr ⟨done, q, hnext, hdone, hq, h.symm⟩

/-- Only a quote begins a name. -/
theorem inside_start (h : start c = some r) : r.2.inside = insideAfter false [c] := by
  unfold start at h
  split at h
  all_goals try (cases h; rfl)
  rename_i hquote
  split at h
  · cases h
    rw [insideAfter, if_neg hquote]
    rfl
  · cases h

theorem extend?_word {letters : List Char} (h : (Lexer.word letters).extend? c = some next) :
    isWordLetter c = true ∧ next = .word (letters ++ [c]) := by
  rw [extend?] at h
  split at h
  · rename_i hword
    exact ⟨hword, (Option.some.inj h).symm⟩
  · cases h

theorem extend?_sign {op : Expr.BinaryOp} (h : (Lexer.sign op).extend? c = some next) :
    (c = '=' ∨ c = '>') ∧ ∃ op', next = .sign op' := by
  cases op with
  | less =>
    rw [extend?] at h
    split at h
    · rename_i hc
      exact ⟨Or.inl hc, _, (Option.some.inj h).symm⟩
    · split at h
      · rename_i hc
        exact ⟨Or.inr hc, _, (Option.some.inj h).symm⟩
      · cases h
  | greater =>
    rw [extend?] at h
    split at h
    · rename_i hc
      exact ⟨Or.inl hc, _, (Option.some.inj h).symm⟩
    · cases h
  | _ => cases h

/-- A quote ends a name, or goes on with it after another; nothing else does either. -/
theorem inside_extend? (h : l.extend? c = some next) : next.inside = insideAfter l.inside [c] := by
  cases l with
  | idle => cases h
  | word letters =>
    obtain ⟨hword, rfl⟩ := extend?_word h
    have hquote : c ≠ '"' := by
      rintro rfl
      cases hword
    rw [insideAfter, if_neg hquote]
    rfl
  | sign op =>
    obtain ⟨rfl | rfl, op', rfl⟩ := extend?_sign h
    · rfl
    · rfl
  | quoted name =>
    rw [extend?] at h
    split at h
    · rename_i hquote
      cases h
      rw [hquote]
      rfl
    · rename_i hquote
      cases h
      rw [insideAfter, if_neg hquote]
      rfl
  | quote name =>
    rw [extend?] at h
    split at h
    · rename_i hquote
      cases h
      rw [hquote]
      rfl
    · cases h

theorem inside_step (h : l.step c = some r) : r.2.inside = insideAfter l.inside [c] := by
  rcases step_cases h with ⟨next, hnext, rfl⟩ | ⟨done, q, _, hdone, hq, rfl⟩
  · exact inside_extend? hnext
  · show q.2.inside = _
    rw [inside_of_finish hdone, inside_start hq]

/-- **The machine is inside a name where the text is inside quotes.** -/
theorem inside_scan {cs : List Char} (h : l.scan cs = some r) :
    r.2.inside = insideAfter l.inside cs := by
  induction cs generalizing l r with
  | nil =>
    cases h
    rfl
  | cons c cs ih =>
    rw [scan] at h
    obtain ⟨q, hq, h⟩ := Option.bind_eq_some_iff.mp h
    obtain ⟨p, hp, rfl⟩ := Option.map_eq_some_iff.mp h
    rw [ih hp, inside_step hq]
    exact (insideAfter_append l.inside [c] cs).symm

theorem start_of_isWordLetter (h : isWordLetter c = true) : (start c).isSome = true := by
  unfold start
  split
  all_goals first | rfl | rw [if_pos h]; rfl

/-- Outside names, a character begins something or is one that could. -/
theorem start_of_step (h : l.step c = some r) (hinside : l.inside = false) (hc : c ≠ '"') :
    (start c).isSome = true := by
  rcases step_cases h with ⟨next, hnext, _⟩ | ⟨_, q, _, _, hq, _⟩
  · cases l with
    | idle => cases hnext
    | word letters => exact start_of_isWordLetter (extend?_word hnext).1
    | sign op =>
      rcases (extend?_sign hnext).1 with rfl | rfl
      · rfl
      · rfl
    | quoted name => cases hinside
    | quote name =>
      rw [extend?, if_neg hc] at hnext
      cases hnext
  · rw [hq]
    rfl

/-- Outside names, a minus is a token. -/
theorem negate_of_step (h : l.step '-' = some r) (hinside : l.inside = false) :
    Token.unary .negate ∈ r.1 := by
  rcases step_cases h with ⟨next, hnext, _⟩ | ⟨done, q, _, _, hq, rfl⟩
  · cases l with
    | idle => cases hnext
    | word letters => cases (extend?_word hnext).1
    | sign op => rcases (extend?_sign hnext).1 with hc | hc <;> cases hc
    | quoted name => cases hinside
    | quote name => cases hnext
  · cases hq
    exact List.mem_append_right done List.mem_cons_self

end Lexer

namespace Token

variable {text : List Char} {ts : List Token}

/-- A text with tokens closes its quotes. -/
theorem closed_of_lex (h : lex text = some ts) : insideAfter false text = false := by
  obtain ⟨r, hr, h⟩ := Option.bind_eq_some_iff.mp h
  obtain ⟨done, hdone, _⟩ := Option.map_eq_some_iff.mp h
  exact (Lexer.inside_scan hr).symm.trans (Lexer.inside_of_finish hdone)

/-- What occurs outside quotes is met by a machine outside names. -/
theorem step_of_occurs (h : lex text = some ts) {c : Char} {word : List Char}
    (ho : OccursOutside (c :: word) text) :
    ∃ l r, Lexer.inside l = false ∧ l.step c = some r ∧ ∀ t ∈ r.1, t ∈ ts := by
  obtain ⟨before, after, rfl, hbefore⟩ := ho
  obtain ⟨r, hr, h⟩ := Option.bind_eq_some_iff.mp h
  obtain ⟨done, _, rfl⟩ := Option.map_eq_some_iff.mp h
  rw [Lexer.scan_append] at hr
  obtain ⟨q, hq, hr⟩ := Option.bind_eq_some_iff.mp hr
  obtain ⟨p, hp, rfl⟩ := Option.map_eq_some_iff.mp hr
  rw [List.cons_append, Lexer.scan] at hp
  obtain ⟨step, hstep, hp⟩ := Option.bind_eq_some_iff.mp hp
  obtain ⟨rest, _, rfl⟩ := Option.map_eq_some_iff.mp hp
  have hinside : q.2.inside = false := (Lexer.inside_scan hq).trans hbefore
  refine ⟨q.2, step, hinside, hstep, fun t ht => ?_⟩
  simp [ht]

theorem start_of_occurs (h : lex text = some ts) {c : Char} {word : List Char}
    (ho : OccursOutside (c :: word) text) (hc : c ≠ '"') : (Lexer.start c).isSome = true := by
  obtain ⟨l, r, hinside, hstep, _⟩ := step_of_occurs h ho
  exact Lexer.start_of_step hstep hinside hc

theorem negate_of_occurs (h : lex text = some ts) {word : List Char}
    (ho : OccursOutside ('-' :: word) text) : .unary .negate ∈ ts := by
  obtain ⟨l, r, hinside, hstep, hmem⟩ := step_of_occurs h ho
  exact hmem _ (Lexer.negate_of_step hstep hinside)

end Token

end EntityQuery
