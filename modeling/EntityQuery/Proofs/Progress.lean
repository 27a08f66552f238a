import EntityQuery.Proofs.Parsed

/-!
Readers move forward, and their bounds are not felt.

A reader of nested terms is told how deep it may go, and a loop how often it may run. Both bounds
come from the length of the text, and every depth and every round reads a character. So two readers
of different depths are compared on the texts that are short enough for both, and in the same breath
it is said where they stop: inside the text, and at least so many characters on.

* `Outcome.Within` -- what is left, or the place of a fault, is a part at the end of a given text;
* `Reader.Alike` -- **two readers do the same on short texts, stay inside and move forward**, with a
  lemma for each way to put readers together. In `Alike.step` a character is read, and the readers
  behind it are compared on shorter texts only: this is where a depth is used up;
* `Reader.Grammar.alike_nested`, `Reader.alike_chainAt` -- a depth that is enough does as well as a
  greater one;
* `Reader.Grammar.whole` -- the readers without a bound on the depth;
  `Reader.Grammar.next_whole`, `Reader.chain_eq` -- **they are made of themselves**.
-/
namespace EntityQuery

open Text

/-! ## 1. Places in a text -/

/-- A cause that arises while a part of a text is read: neither the depth of nesting nor what
    follows the whole. -/
def Cause.isLocal : Cause → Bool
  | .tooDeep => false
  | .trailing _ => false
  | _ => true

/-- The fault is at a place in the text. -/
structure Fault.Within (origin : List Char) (f : Fault) : Prop where
  place : f.rest <:+ origin
  cause : f.cause.isLocal = true

theorem Fault.Within.further {origin : List Char} {f g : Fault} (hf : f.Within origin)
    (hg : g.Within origin) : (f.further g).Within origin := by
  unfold Fault.further
  split
  · exact hg
  · exact hf

/-- What comes of reading `s` stays inside a text, and is at least so many characters on. -/
def Outcome.Within {α : Type} (origin s : List Char) (k : Nat) : Outcome α → Prop
  | .ok _ rest => rest <:+ origin ∧ rest.length + k ≤ s.length
  | .error f => f.Within origin
  | .failure f => f.Within origin

theorem Outcome.Within.weaken {α : Type} {origin s s' : List Char} {k k' : Nat} {o : Outcome α}
    (h : o.Within origin s k) (hk : s.length + k' ≤ s'.length + k) : o.Within origin s' k' := by
  cases o with
  | ok a rest =>
    obtain ⟨hrest, hlength⟩ := h
    exact ⟨hrest, by omega⟩
  | error f => exact h
  | failure f => exact h

namespace Reader

/-- **Two readers do the same** on the parts of a text that have fewer than `n` characters. They
    stay inside the text, and a success reads at least `k` characters. -/
def Alike {α : Type} (origin : List Char) (n k : Nat) (r r' : Reader α) : Prop :=
  ∀ s, s <:+ origin → s.length < n → r s = r' s ∧ (r s).Within origin s k

namespace Alike

/-! ## 2. Readers put together -/

variable {α β : Type} {origin : List Char} {n m k k' : Nat} {r r' : Reader α}

theorem eq (h : Alike origin n k r r') {s : List Char} (hs : s <:+ origin) (hn : s.length < n) :
    r s = r' s := (h s hs hn).1

theorem within (h : Alike origin n k r r') {s : List Char} (hs : s <:+ origin)
    (hn : s.length < n) : (r s).Within origin s k := (h s hs hn).2

theorem refl (h : ∀ s, s <:+ origin → (r s).Within origin s k) : Alike origin n k r r :=
  fun s hs _ => ⟨rfl, h s hs⟩

theorem right (h : Alike origin n k r r') : Alike origin n k r' r' := by
  intro s hs hn
  obtain ⟨heq, hwithin⟩ := h s hs hn
  exact ⟨rfl, heq ▸ hwithin⟩

theorem mono (h : Alike origin n k r r') (hm : m ≤ n) : Alike origin m k r r' :=
  fun s hs hn => h s hs (Nat.lt_of_lt_of_le hn hm)

theorem weaken (h : Alike origin n k r r') : Alike origin n 0 r r' :=
  fun s hs hn => ⟨h.eq hs hn, (h.within hs hn).weaken (by omega)⟩

/-- Readers of different depths that do the same where both are deep enough do the same as the one
    that takes its depth from the text. -/
theorem ofDepths {r : Nat → Reader α} (h : ∀ {n m : Nat}, n ≤ m → Alike origin n k (r n) (r m)) :
    Alike origin n k (r n) fun s => r (s.length + 1) s := by
  intro s hs hn
  obtain ⟨heq, hwithin⟩ := h hn s hs (Nat.lt_succ_self s.length)
  exact ⟨heq.symm, heq ▸ hwithin⟩

theorem pure (a : α) : Alike origin n 0 (Pure.pure a : Reader α) (Pure.pure a) :=
  refl fun _ hs => ⟨hs, Nat.le_refl _⟩

theorem failAt {place : List Char} (hplace : place <:+ origin) {cause : Cause}
    (hcause : cause.isLocal = true) :
    Alike origin n k (Reader.failAt place cause : Reader α) (Reader.failAt place cause) :=
  refl fun _ _ => ⟨hplace, hcause⟩

theorem errorAt {place : List Char} (hplace : place <:+ origin) {cause : Cause}
    (hcause : cause.isLocal = true) :
    Alike origin n k (Reader.errorAt place cause : Reader α) (Reader.errorAt place cause) :=
  refl fun _ _ => ⟨hplace, hcause⟩

/-- The place that is kept for a fault is in the text. -/
theorem here {f f' : List Char → Reader α}
    (h : ∀ start, start <:+ origin → Alike origin n k (f start) (f' start)) :
    Alike origin n k (Reader.here >>= f) (Reader.here >>= f') :=
  fun s hs hn => h s hs s hs hn

/-- After the characters of the first reader the second has only shorter texts. -/
theorem bindAt {f f' : α → Reader β} (hm : n ≤ m + k) (hr : Alike origin n k r r')
    (hf : ∀ a, Alike origin m k' (f a) (f' a)) : Alike origin n k (r >>= f) (r' >>= f') := by
  intro s hs hn
  obtain ⟨heq, hwithin⟩ := hr s hs hn
  rw [bind_apply, bind_apply, ← heq]
  generalize r s = o at hwithin ⊢
  cases o with
  | ok a rest =>
    obtain ⟨hrest, hlength⟩ := hwithin
    obtain ⟨heq', hwithin'⟩ := hf a rest hrest (by omega)
    exact ⟨heq', hwithin'.weaken (by omega)⟩
  | error f => exact ⟨rfl, hwithin⟩
  | failure f => exact ⟨rfl, hwithin⟩

theorem bind {f f' : α → Reader β} (hr : Alike origin n k r r')
    (hf : ∀ a, Alike origin n k' (f a) (f' a)) : Alike origin n k (r >>= f) (r' >>= f') :=
  bindAt (Nat.le_add_right n k) hr hf

/-- **A character is read**, so that what follows may be one character shorter. -/
theorem step {f f' : α → Reader β} (hr : Alike origin (n + 1) 1 r r')
    (hf : ∀ a, Alike origin n k' (f a) (f' a)) : Alike origin (n + 1) 1 (r >>= f) (r' >>= f') :=
  bindAt (Nat.le_refl _) hr hf

theorem map (hr : Alike origin n k r r') (f : α → β) : Alike origin n k (f <$> r) (f <$> r') :=
  hr.bind fun a => .pure (f a)

theorem cut (hr : Alike origin n k r r') : Alike origin n k r.cut r'.cut := by
  intro s hs hn
  obtain ⟨heq, hwithin⟩ := hr s hs hn
  unfold Reader.cut
  rw [← heq]
  generalize r s = o at hwithin ⊢
  cases o with
  | ok a rest => exact ⟨rfl, hwithin⟩
  | error f => exact ⟨rfl, hwithin⟩
  | failure f => exact ⟨rfl, hwithin⟩

theorem orElse {r₂ r₂' : Reader α} (hr : Alike origin n k r r') (hr₂ : Alike origin n k r₂ r₂') :
    Alike origin n k (r.orElse r₂) (r'.orElse r₂') := by
  intro s hs hn
  obtain ⟨heq, hwithin⟩ := hr s hs hn
  obtain ⟨heq₂, hwithin₂⟩ := hr₂ s hs hn
  unfold Reader.orElse
  rw [← heq, ← heq₂]
  generalize r s = o at hwithin ⊢
  cases o with
  | ok a rest => exact ⟨rfl, hwithin⟩
  | failure f => exact ⟨rfl, hwithin⟩
  | error f =>
    generalize r₂ s = o₂ at hwithin₂ ⊢
    cases o₂ with
    | ok a rest => exact ⟨rfl, hwithin₂⟩
    | failure f₂ => exact ⟨rfl, hwithin₂⟩
    | error f₂ => exact ⟨rfl, Fault.Within.further hwithin hwithin₂⟩

theorem optional (hr : Alike origin n k r r') : Alike origin n 0 r.optional r'.optional := by
  intro s hs hn
  obtain ⟨heq, hwithin⟩ := hr s hs hn
  unfold Reader.optional
  rw [← heq]
  generalize r s = o at hwithin ⊢
  cases o with
  | ok a rest =>
    obtain ⟨hrest, hlength⟩ := hwithin
    exact ⟨rfl, hrest, by omega⟩
  | error f => exact ⟨rfl, hs, Nat.le_refl _⟩
  | failure f => exact ⟨rfl, hwithin⟩

theorem iterateAtMost {step step' : α → Reader α} (hstep : ∀ a, Alike origin n 1 (step a) (step' a))
    (rounds : Nat) (a : α) : Alike origin n 0 (Reader.iterateAtMost step rounds a)
      (Reader.iterateAtMost step' rounds a) := by
  induction rounds generalizing a with
  | zero => exact .pure a
  | succ rounds ih =>
    intro s hs hn
    obtain ⟨heq, hwithin⟩ := hstep a s hs hn
    simp only [Reader.iterateAtMost]
    rw [← heq]
    generalize step a s = o at hwithin ⊢
    cases o with
    | ok b rest =>
      obtain ⟨hrest, hlength⟩ := hwithin
      obtain ⟨heq', hwithin'⟩ := ih b rest hrest (by omega)
      exact ⟨heq', hwithin'.weaken (by omega)⟩
    | error f => exact ⟨rfl, hs, Nat.le_refl _⟩
    | failure f => exact ⟨rfl, hwithin⟩

/-- The number of rounds comes from the text, which is the same for both. -/
theorem iterate {step step' : α → Reader α} (hstep : ∀ a, Alike origin n 1 (step a) (step' a))
    (a : α) : Alike origin n 0 (Reader.iterate step a) (Reader.iterate step' a) :=
  fun s => iterateAtMost hstep s.length a s

theorem itemsAfter {separator : Reader Unit} (hr : Alike origin n k r r')
    (hs : Alike origin n 1 separator separator) (first : α) :
    Alike origin n 0 (Reader.itemsAfter separator r first) (Reader.itemsAfter separator r' first) :=
  iterate (fun items => hs.bind fun _ => hr.bind fun a => .pure (items ++ [a])) [first]

theorem separated₁ {separator : Reader Unit} (hr : Alike origin n k r r')
    (hs : Alike origin n 1 separator separator) :
    Alike origin n k (Reader.separated₁ separator r) (Reader.separated₁ separator r') :=
  hr.bind fun first => hr.itemsAfter hs first

theorem separated {separator : Reader Unit} (hr : Alike origin n k r r')
    (hs : Alike origin n 1 separator separator) :
    Alike origin n 0 (Reader.separated separator r) (Reader.separated separator r') := by
  refine hr.optional.bind fun first => (?_ : Alike origin n 0 _ _)
  cases first with
  | none => exact .pure []
  | some a => exact hr.itemsAfter hs a

theorem between {opening closing : Reader Unit} (hr : Alike origin n k r r')
    (ho : Alike origin n 1 opening opening) (hc : Alike origin n k' closing closing) :
    Alike origin n 1 (Reader.between opening r closing) (Reader.between opening r' closing) :=
  ho.bind fun _ => hr.bind fun a => hc.bind fun _ => .pure a

end Alike

/-! ## 3. Tokens and literals -/

section Tokens

variable {origin : List Char} {n : Nat}

theorem eq_append_of_stripChars? {token s rest : List Char} (h : stripChars? token s = some rest) :
    s = token ++ rest := by
  induction token generalizing s with
  | nil =>
    cases h
    rfl
  | cons c cs ih =>
    cases s with
    | nil => cases h
    | cons d s =>
      unfold stripChars? at h
      split at h
      · rename_i heq
        rw [heq, ih h, List.cons_append]
      · cases h

theorem alike_symbol (token : String) (htoken : token ≠ "") :
    Alike origin n 1 (symbol token) (symbol token) := by
  refine .refl fun s hs => ?_
  have hgap := (skipGap_suffix s).trans hs
  have hlength := (skipGap_suffix s).length_le
  simp only [symbol]
  split
  · rename_i rest hrest
    have happend := eq_append_of_stripChars? hrest
    have hpos : 0 < token.toList.length := by
      rw [List.length_pos_iff, ne_eq, String.toList_eq_nil_iff]
      exact htoken
    rw [happend] at hgap hlength
    rw [List.length_append] at hlength
    exact ⟨(List.suffix_append _ _).trans hgap, by omega⟩
  · exact ⟨hgap, rfl⟩

theorem alike_name : Alike origin n 1 name name := by
  refine .refl fun s hs => ?_
  have hgap := (skipGap_suffix s).trans hs
  have hlength := (skipGap_suffix s).length_le
  unfold name
  cases hskip : skipGap s with
  | nil => exact ⟨List.nil_suffix, rfl⟩
  | cons c cs =>
    rw [hskip] at hgap hlength
    simp only
    split
    · have hrest : cs.dropWhile isNamePart <:+ cs := List.dropWhile_suffix _
      have hle := hrest.length_le
      rw [List.length_cons] at hlength
      exact ⟨(hrest.trans (List.suffix_cons c cs)).trans hgap, by omega⟩
    · exact ⟨hgap, rfl⟩

theorem fractionDigits_suffix (s : List Char) : (fractionDigits s).2 <:+ s := by
  unfold fractionDigits
  split
  · split
    · exact List.suffix_rfl
    · exact (List.dropWhile_suffix _).trans (List.suffix_cons _ _)
  · exact List.suffix_rfl

theorem numberSuffix_suffix (s : List Char) : (numberSuffix s).2 <:+ s := by
  unfold numberSuffix
  split
  · split
    · exact List.suffix_cons _ _
    · exact List.suffix_rfl
  · exact List.suffix_rfl

theorem alike_number : Alike origin n 1 number number := by
  refine .refl fun s hs => ?_
  have hgap := (skipGap_suffix s).trans hs
  have hlength := (skipGap_suffix s).length_le
  simp only [number]
  split
  · exact ⟨hgap, rfl⟩
  · rename_i hwhole
    generalize hdrop : (skipGap s).dropWhile Char.isDigit = after
    have hrest := (numberSuffix_suffix (fractionDigits after).2).trans (fractionDigits_suffix after)
    have hle := hrest.length_le
    have hafter : after <:+ skipGap s := hdrop ▸ List.dropWhile_suffix _
    -- the digits before the point are characters that are read
    have hdigits : after.length + 1 ≤ (skipGap s).length := by
      have hsplit := congrArg List.length
        (List.takeWhile_append_dropWhile (p := Char.isDigit) (l := skipGap s))
      rw [List.length_append, hdrop] at hsplit
      have hpos : 0 < ((skipGap s).takeWhile Char.isDigit).length := by
        rw [List.length_pos_iff]
        simpa using hwhole
      omega
    split
    · exact ⟨(hrest.trans hafter).trans hgap, by omega⟩
    · exact ⟨hgap, rfl⟩

theorem quotedBody_suffix {quote : Char} {s cs rest : List Char}
    (h : quotedBody quote s = some (cs, rest)) : rest <:+ s ∧ rest.length < s.length := by
  fun_induction quotedBody quote s generalizing cs with
  | case1 => cases h
  | case2 s =>
    cases h
    exact ⟨List.suffix_cons _ _, by simp⟩
  | case3 => cases h
  | case4 d s _ ih =>
    obtain ⟨⟨ds, _⟩, hbody, heq⟩ := Option.map_eq_some_iff.mp h
    cases heq
    obtain ⟨hsuffix, hlength⟩ := ih hbody
    refine ⟨(hsuffix.trans (List.suffix_cons d s)).trans (List.suffix_cons _ _), ?_⟩
    rw [List.length_cons, List.length_cons]
    omega
  | case5 c s _ _ ih =>
    obtain ⟨⟨ds, _⟩, hbody, heq⟩ := Option.map_eq_some_iff.mp h
    cases heq
    obtain ⟨hsuffix, hlength⟩ := ih hbody
    exact ⟨hsuffix.trans (List.suffix_cons c s), by rw [List.length_cons]; omega⟩

theorem alike_quoted (quote : Char) : Alike origin n 1 (quoted quote) (quoted quote) := by
  refine .refl fun s hs => ?_
  have hgap := (skipGap_suffix s).trans hs
  have hlength := (skipGap_suffix s).length_le
  simp only [quoted]
  cases hskip : skipGap s with
  | nil => exact ⟨List.nil_suffix, rfl⟩
  | cons c cs =>
    rw [hskip] at hgap hlength
    simp only
    split
    · split
      · rename_i hbody
        obtain ⟨hsuffix, hshorter⟩ := quotedBody_suffix hbody
        rw [List.length_cons] at hlength
        exact ⟨(hsuffix.trans (List.suffix_cons c cs)).trans hgap, by omega⟩
      · exact ⟨hgap, rfl⟩
    · exact ⟨hgap, rfl⟩

theorem alike_stringLiteral : Alike origin n 1 stringLiteral stringLiteral :=
  (alike_quoted _).bind fun _ => .pure _

theorem alike_charLiteral : Alike origin n 1 charLiteral charLiteral := by
  refine .here fun start hstart => (alike_quoted _).bind fun cs => (?_ : Alike origin n 0 _ _)
  split
  · exact .pure _
  · exact .failAt ((skipWhite_suffix start).trans hstart) rfl

theorem alike_sign (ops : List BinaryOp) : Alike origin n 1 (sign ops) (sign ops) := by
  refine .refl fun s hs => ?_
  induction ops with
  | nil => exact ⟨hs, rfl⟩
  | cons op ops ih =>
    have hsymbol : op.symbol ≠ "" := by
      cases op <;> decide
    have hwithin := (alike_symbol op.symbol hsymbol).within hs (Nat.lt_succ_self s.length)
    unfold sign
    generalize symbol op.symbol s = o at hwithin ⊢
    cases o with
    | ok _ rest => exact hwithin
    | error f => exact ih
    | failure f => exact ih

end Tokens

/-! ## 4. Terms -/

section Terms

variable {origin : List Char} {n : Nat}

theorem alike_binaryLevel (ops : List BinaryOp) {operand operand' : Reader Term}
    (h : Alike origin n 1 operand operand') :
    Alike origin n 1 (binaryLevel ops operand) (binaryLevel ops operand') :=
  h.bind fun first => .iterate (fun left => (alike_sign ops).bind fun op =>
    h.cut.bind fun right => .pure (.binary op left right)) first

theorem alike_levels (levels : List (List BinaryOp)) {operand operand' : Reader Term}
    (h : Alike origin n 1 operand operand') :
    Alike origin n 1 (levels.foldr binaryLevel operand) (levels.foldr binaryLevel operand') := by
  induction levels with
  | nil => exact h
  | cons ops levels ih => exact alike_binaryLevel ops ih

theorem alike_memberLabel : Alike origin n 1 memberLabel memberLabel := by
  refine alike_name.bind fun label => (alike_symbol "=" (by decide)).bind fun _ =>
    .here fun start hstart => (?_ : Alike origin n 0 _ _)
  split
  · split
    · exact .errorAt hstart rfl
    · exact .pure label
  · exact .pure label

section Nested

variable {term term' access access' : Reader Term} (ht : Alike origin n 1 term term')
  (ha : Alike origin n 1 access access')

include ht ha

theorem alike_objectMember :
    Alike origin n 1 (objectMember term access) (objectMember term' access') := by
  intro s hs hn
  have hlabel := (alike_memberLabel (n := n)).within hs hn
  unfold objectMember
  generalize memberLabel s = o at hlabel ⊢
  cases o with
  | ok label rest =>
    obtain ⟨hrest, hlength⟩ := hlabel
    have hlabelled := ht.cut.bind fun t => Alike.pure (label, t)
    obtain ⟨heq, hwithin⟩ := hlabelled rest hrest (by omega)
    exact ⟨heq, hwithin.weaken (by omega)⟩
  | error f | failure f =>
    -- the member starts at the same place again, which is kept for its fault
    refine ha.bind (fun t => (?_ : Alike origin n 0 _ _)) s hs hn
    split
    · exact .pure _
    · exact .failAt ((skipWhite_suffix s).trans hs) rfl

theorem alike_object : Alike origin n 1 (object term access) (object term' access') := by
  have hmembers := (alike_objectMember ht ha).separated₁ (alike_symbol "," (by decide))
  have hbraces := hmembers.between (alike_symbol "\x7b" (by decide)).cut
    (alike_symbol "\x7d" (by decide)).cut
  exact hbraces.bind fun members => .pure (Term.object members)

theorem alike_word : Alike origin (n + 1) 1 (word term access) (word term' access') := by
  refine alike_name.step fun w => (?_ : Alike origin n 0 _ _)
  split
  · exact .pure _
  · split
    · exact .pure _
    · split
      · exact .pure _
      · split
        · exact (alike_object ht ha).weaken
        · exact .pure _

theorem alike_atom : Alike origin (n + 1) 1 (atom term access) (atom term' access') := by
  have hparens : Alike origin (n + 1) 1 (between (symbol "(") term (cut (symbol ")")))
      (between (symbol "(") term' (cut (symbol ")"))) :=
    (alike_symbol "(" (by decide)).step fun _ => ht.bind fun t =>
      (alike_symbol ")" (by decide)).cut.bind fun _ => .pure t
  exact (((alike_number.orElse alike_stringLiteral).orElse alike_charLiteral).orElse hparens).orElse
    (alike_word ht ha)

omit ha in
theorem alike_arguments : Alike origin n 1 (arguments term) (arguments term') :=
  (ht.separated (alike_symbol "," (by decide))).between (alike_symbol "(" (by decide))
    (alike_symbol ")" (by decide)).cut

omit ha in
theorem alike_accessStep (target : Term) :
    Alike origin n 1 (accessStep term target) (accessStep term' target) := by
  refine (alike_symbol "." (by decide)).bind fun _ => alike_name.bind fun label =>
    (alike_arguments ht).optional.bind fun args => (?_ : Alike origin n 0 _ _)
  cases args with
  | none => exact .pure _
  | some args => exact .pure _

theorem alike_accesses : Alike origin (n + 1) 1 (accesses term access) (accesses term' access') :=
  (alike_atom ht ha).step fun first => .iterate (alike_accessStep ht) first

end Nested

theorem alike_castType : Alike origin n 1 castType castType := by
  refine .here fun start hstart => alike_name.bind fun keyword => (?_ : Alike origin n 0 _ _)
  split
  · exact .pure _
  · exact .errorAt hstart rfl

theorem alike_signed (token : String) (htoken : token ≠ "") {unary unary' : Reader Term}
    (h : Alike origin n 1 unary unary') (build : Term → Term) :
    Alike origin (n + 1) 1 (signed token unary build) (signed token unary' build) :=
  (alike_symbol token htoken).step fun _ => h.cut.bind fun t => .pure (build t)

theorem alike_castTo {unary unary' : Reader Term} (h : Alike origin n 1 unary unary') :
    Alike origin (n + 1) 1 (castTo unary) (castTo unary') := by
  have htype : Alike origin (n + 1) 1 (between (symbol "(") castType (symbol ")"))
      (between (symbol "(") castType (symbol ")")) :=
    alike_castType.between (alike_symbol "(" (by decide)) (alike_symbol ")" (by decide))
  exact htype.step fun type => h.bind fun t => .pure (Term.unary (.convert type) t)

/-! ## 5. Nesting -/

namespace Grammar

/-- The readers of two grammars do the same on short texts. -/
structure Alike (origin : List Char) (n : Nat) (g g' : Grammar) : Prop where
  unary : Reader.Alike origin n 1 g.unary g'.unary
  access : Reader.Alike origin n 1 g.access g'.access

variable {g g' : Grammar}

theorem Alike.right (h : g.Alike origin n g') : g'.Alike origin n g' :=
  ⟨h.unary.right, h.access.right⟩

theorem Alike.term (h : g.Alike origin n g') : Reader.Alike origin n 1 g.term g'.term :=
  alike_levels levels h.unary

/-- **One depth more is enough for one character more.** -/
theorem Alike.next (h : g.Alike origin n g') : g.next.Alike origin (n + 1) g'.next := by
  have hnot := alike_signed "!" (by decide) h.unary (Term.unary .not)
  have hminus := alike_signed "-" (by decide) h.unary Term.negated
  have hplus := alike_signed "+" (by decide) h.unary (Term.unary .plus)
  have hcast := alike_castTo h.unary
  have haccess := alike_accesses h.term h.access
  exact ⟨(((hnot.orElse hminus).orElse hplus).orElse hcast).orElse haccess, haccess⟩

/-- **A depth that is enough does as well as a greater one.** -/
theorem alike_nested {m : Nat} (hm : n ≤ m) : (nested n).Alike origin n (nested m) := by
  -- no text has fewer than no characters, so that the depth without readers does not matter
  induction n generalizing m with
  | zero =>
    have hnone : ∀ r r' : Reader Term, Reader.Alike origin 0 1 r r' :=
      fun _ _ _ _ hn => absurd hn (Nat.not_lt_zero _)
    exact ⟨hnone _ _, hnone _ _⟩
  | succ n ih =>
    obtain ⟨m, rfl⟩ : ∃ m', m = m' + 1 := ⟨m - 1, by omega⟩
    exact (ih (by omega)).next

/-- The readers without a bound on the depth: the text says how deep they go. -/
def whole : Grammar where
  unary := fun s => (nested (s.length + 1)).unary s
  access := fun s => (nested (s.length + 1)).access s

theorem alike_whole (origin : List Char) (n : Nat) : (nested n).Alike origin n whole where
  unary := .ofDepths fun hm => (alike_nested hm).unary
  access := .ofDepths fun hm => (alike_nested hm).access

/-- **The readers without a bound are made of themselves.** -/
theorem next_whole : whole.next = whole := by
  have hunary : whole.next.unary = whole.unary := by
    funext s
    exact ((alike_whole s s.length).next.unary.eq List.suffix_rfl (Nat.lt_succ_self _)).symm
  have haccess : whole.next.access = whole.access := by
    funext s
    exact ((alike_whole s s.length).next.access.eq List.suffix_rfl (Nat.lt_succ_self _)).symm
  calc whole.next = ⟨whole.next.unary, whole.next.access⟩ := rfl
    _ = whole := by rw [hunary, haccess]

end Grammar

theorem term_eq : term = Grammar.whole.term := by
  funext s
  exact (Grammar.alike_whole s (s.length + 1)).term.eq List.suffix_rfl (Nat.lt_succ_self s.length)

theorem alike_term : Alike origin n 1 term term := by
  rw [term_eq]
  exact (Grammar.alike_whole origin n).right.term

theorem alike_lambda : Alike origin n 1 lambda lambda :=
  alike_name.bind fun _ => (alike_symbol "=>" (by decide)).bind fun _ =>
    alike_term.cut.bind fun _ => .pure _

end Terms

/-! ## 6. Chains -/

section Chains

variable {origin : List Char} {n : Nat} {chain chain' : Reader Chain}

theorem argumentRules_alike (hc : Alike origin n 1 chain chain') :
    ArgumentRules (Alike origin n 0) chain chain' where
  filter := (alike_lambda.cut.map _).weaken
  project := (alike_lambda.cut.map _).weaken
  overRows _ := (alike_lambda.cut.map _).weaken
  order _ _ := (alike_lambda.cut.map _).weaken
  aggregate _ := alike_lambda.optional.map _
  pick _ _ := alike_lambda.optional.map _
  elementAt _ := (alike_term.cut.map _).weaken
  withTerm _ := (alike_term.cut.map _).weaken
  defaultIfEmpty := alike_term.optional.map _
  plain _ := .pure _
  combine _ := (hc.cut.map _).weaken
  join _ := by
    have hcomma : Alike origin n 1 (symbol ",") (symbol ",") := alike_symbol "," (by decide)
    refine (Alike.cut (hc.bind fun _ => hcomma.bind fun _ => alike_lambda.bind fun _ =>
      hcomma.bind fun _ => alike_lambda.bind fun _ => hcomma.bind fun _ =>
        alike_lambda.bind fun _ => .pure _)).weaken

theorem alike_operatorArguments (hc : Alike origin n 1 chain chain') {start : List Char}
    (hstart : start <:+ origin) (name : String) (type : Option ValueType) :
    Alike origin n 0 (operatorArguments chain start name type)
      (operatorArguments chain' start name type) := by
  have hnamed := (argumentRules_alike hc).argumentsOf? name
  unfold operatorArguments
  generalize chain.argumentsOf? name = found, chain'.argumentsOf? name = found' at hnamed ⊢
  cases typeOperatorNamed? name with
  | some kind =>
    cases type with
    | some t => exact .pure _
    | none => exact .failAt hstart rfl
  | none =>
    cases hnamed with
    | none => exact .failAt hstart rfl
    | some hr =>
      refine hr.bind fun op => (?_ : Alike origin n 0 _ _)
      split
      · exact .failAt hstart rfl
      · exact .pure op

theorem alike_typeName : Alike origin n 1 typeName typeName := alike_name.bind fun _ => .pure _

theorem alike_operator (hc : Alike origin n 1 chain chain') :
    Alike origin n 1 (operator chain) (operator chain') := by
  have htype : Alike origin n 1 (between (symbol "<") typeName (cut (symbol ">")))
      (between (symbol "<") typeName (cut (symbol ">"))) :=
    alike_typeName.between (alike_symbol "<" (by decide)) (alike_symbol ">" (by decide)).cut
  exact .here fun start hstart => alike_name.bind fun n => htype.optional.bind fun type =>
    (alike_symbol "(" (by decide)).cut.bind fun _ =>
      (alike_operatorArguments hc ((skipWhite_suffix start).trans hstart) n type).bind fun op =>
        (alike_symbol ")" (by decide)).cut.bind fun _ => .pure op

/-- A point and an operator after the operators so far. -/
def operatorStep (chain : Reader Chain) (ops : Chain) : Reader Chain := do
  symbol "."
  let op ← operator chain
  return ops ++ [op]

/-- An entity and then operators, with a reader for the chains inside. -/
def chainOf (chain : Reader Chain) : Reader Chain := do
  let entity ← name
  iterate (operatorStep chain) [.source entity]

theorem alike_operatorStep (hc : Alike origin n 1 chain chain') (ops : Chain) :
    Alike origin n 1 (operatorStep chain ops) (operatorStep chain' ops) :=
  (alike_symbol "." (by decide)).bind fun _ => (alike_operator hc).bind fun op =>
    .pure (ops ++ [op])

theorem alike_chainOf (hc : Alike origin n 1 chain chain') :
    Alike origin (n + 1) 1 (chainOf chain) (chainOf chain') :=
  alike_name.step fun entity => .iterate (alike_operatorStep hc) [.source entity]

end Chains

theorem alike_chainAt {origin : List Char} {n m : Nat} (hm : n ≤ m) :
    Alike origin n 1 (chainAt n) (chainAt m) := by
  induction n generalizing m with
  | zero => exact fun _ _ hn => absurd hn (Nat.not_lt_zero _)
  | succ n ih =>
    obtain ⟨m, rfl⟩ : ∃ m', m = m' + 1 := ⟨m - 1, by omega⟩
    exact alike_chainOf (ih (by omega))

theorem alike_chain (origin : List Char) (n : Nat) : Alike origin n 1 (chainAt n) chain :=
  .ofDepths alike_chainAt

/-- **The reader of chains is made of itself.** -/
theorem chain_eq : chain = chainOf chain := by
  funext s
  exact (alike_chainOf (alike_chain s s.length)).eq List.suffix_rfl (Nat.lt_succ_self s.length)

end Reader

end EntityQuery
