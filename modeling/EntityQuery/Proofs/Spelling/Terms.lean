import EntityQuery.Proofs.Spelling.Literals

/-!
How terms are spelled.

* `Term.Spelled` -- a term, a text of it, and how tightly the text holds together: on the levels 0
  to 6 the binary operators from loosest to tightest, on 7 the operators before an operand, on 8
  member accesses and calls, on 9 atoms. A text of one level is one of every looser level, and
  parentheses make one of the tightest. Every token may have a gap before it;
* `Term.Spelled.next?` -- what a term's text can start with;
* `Stops` -- what may stand behind a text of a level, so that a reader of that level stops there;
* `Reader.castType_of_spelled`, `Reader.fails_castTo` -- **what is read as a cast is no other
  term**: a type in parentheses and a term in parentheses start alike, and only a closing
  parenthesis right after a name tells them apart.
-/
namespace EntityQuery

open Text

/-! ## 1. Lists -/

/-- Items, each after a comma. -/
inductive Further : List (List Char) → List Char → Prop where
  | nil : Further [] []
  | cons {comma item more : List Char} {items : List (List Char)} (hcomma : Spaced [','] comma)
      (h : Further items more) : Further (item :: items) (comma ++ (item ++ more))

/-- Items with commas between them. -/
def Listed : List (List Char) → List Char → Prop
  | [], s => s = []
  | item :: items, s => ∃ more, Further items more ∧ s = item ++ more

theorem Further.length_le {items : List (List Char)} {s : List Char} (h : Further items s) :
    ∀ item ∈ items, item.length ≤ s.length := by
  induction h with
  | nil => simp
  | cons hcomma _ ih =>
    rintro item hitem
    rcases List.mem_cons.mp hitem with rfl | hitem
    · simp only [List.length_append]
      omega
    · have hmore := ih item hitem
      simp only [List.length_append]
      omega

theorem Listed.length_le {items : List (List Char)} {s : List Char} (h : Listed items s) :
    ∀ item ∈ items, item.length ≤ s.length := by
  cases items with
  | nil => simp
  | cons first items =>
    obtain ⟨more, hmore, rfl⟩ := h
    intro item hitem
    rw [List.length_append]
    rcases List.mem_cons.mp hitem with rfl | hitem
    · exact Nat.le_add_right _ _
    · exact Nat.le_trans (hmore.length_le item hitem) (Nat.le_add_left _ _)

/-! ## 2. Terms -/

/-- The level of a binary operator. The tighter it binds, the higher it is. -/
def BinaryOp.level : BinaryOp → Nat
  | .or => 0
  | .and => 1
  | .equal | .notEqual => 2
  | .less | .lessEqual | .greater | .greaterEqual => 3
  | .coalesce => 4
  | .add | .subtract => 5
  | .multiply | .divide | .modulo => 6

theorem BinaryOp.level_lt (op : BinaryOp) : op.level < 7 := by cases op <;> decide

/-- A member of an object with the texts of its label, of the equals sign and of its value. -/
structure MemberText where
  label : String
  value : Term
  labelText : List Char
  signText : List Char
  valueText : List Char

namespace MemberText

/-- The whole text of a member. -/
def text (m : MemberText) : List Char := m.labelText ++ (m.signText ++ m.valueText)

/-- The label and the sign are spelled as such. -/
def IsFramed (m : MemberText) : Prop :=
  isName m.label = true ∧ Spaced m.label.toList m.labelText ∧ Spaced ['='] m.signText

/-- The member itself. -/
def pair (m : MemberText) : String × Term := (m.label, m.value)

end MemberText

/-- The texts of a term that hold together at a level. A minus before a number belongs to it. A
    parameter is not put in parentheses, where it could be the type of a cast. -/
inductive Term.Spelled : Nat → Term → List Char → Prop where
  | loosen {l : Nat} {t : Term} {s : List Char} (hl : l < 9) (h : Spelled (l + 1) t s) :
      Spelled l t s
  | binary (op : BinaryOp) {left right : Term} {s₁ s₂ s₃ : List Char}
      (hleft : Spelled op.level left s₁) (hsign : Spaced op.symbol.toList s₂)
      (hright : Spelled (op.level + 1) right s₃) :
      Spelled op.level (.binary op left right) (s₁ ++ (s₂ ++ s₃))
  | not {t : Term} {s₁ s₂ : List Char} (hsign : Spaced ['!'] s₁) (h : Spelled 7 t s₂) :
      Spelled 7 (.unary .not t) (s₁ ++ s₂)
  | minus {t : Term} {s₁ s₂ : List Char} (hsign : Spaced ['-'] s₁) (h : Spelled 7 t s₂) :
      Spelled 7 t.negated (s₁ ++ s₂)
  | plus {t : Term} {s₁ s₂ : List Char} (hsign : Spaced ['+'] s₁) (h : Spelled 7 t s₂) :
      Spelled 7 (.unary .plus t) (s₁ ++ s₂)
  | cast {keyword : String} {type : ValueType} {t : Term} {s₁ s₂ s₃ s₄ : List Char}
      (htype : ValueType.ofKeyword? keyword = some type) (hopen : Spaced ['('] s₁)
      (hname : Spaced keyword.toList s₂) (hclose : Spaced [')'] s₃) (h : Spelled 7 t s₄) :
      Spelled 7 (.unary (.convert type) t) (s₁ ++ (s₂ ++ (s₃ ++ s₄)))
  | member {t : Term} {label : String} {s₁ s₂ s₃ : List Char} (h : Spelled 8 t s₁)
      (hpoint : Spaced ['.'] s₂) (hlabel : isName label = true) (hname : Spaced label.toList s₃) :
      Spelled 8 (.member t label) (s₁ ++ (s₂ ++ s₃))
  | call {t : Term} {label : String} {arguments : List (Term × List Char)}
      {s₁ s₂ s₃ s₄ s₅ s₆ : List Char} (h : Spelled 8 t s₁) (hpoint : Spaced ['.'] s₂)
      (hlabel : isName label = true) (hname : Spaced label.toList s₃) (hopen : Spaced ['('] s₄)
      (harguments : ∀ a ∈ arguments, Spelled 0 a.1 a.2)
      (hlist : Listed (arguments.map Prod.snd) s₅) (hclose : Spaced [')'] s₆) :
      Spelled 8 (.call t ⟨none, label⟩ (arguments.map Prod.fst))
        (s₁ ++ (s₂ ++ (s₃ ++ (s₄ ++ (s₅ ++ s₆)))))
  | literal {v : Literal} {token s : List Char} (hv : v.Spelled token) (h : Spaced token s) :
      Spelled 9 (.ofLiteral v) s
  | null {s : List Char} (h : Spaced "null".toList s) : Spelled 9 (.null .object) s
  | parameter {name : String} {s : List Char} (hname : isName name = true)
      (hword : isKeyword name = false) (h : Spaced name.toList s) : Spelled 9 (.parameter name) s
  | object {members : List MemberText} {s₁ s₂ s₃ s₄ : List Char} (hnew : Spaced "new".toList s₁)
      (hopen : Spaced ['\x7b'] s₂) (hsome : members ≠ []) (hframe : ∀ m ∈ members, m.IsFramed)
      (hvalues : ∀ m ∈ members, Spelled 0 m.value m.valueText)
      (hlist : Listed (members.map MemberText.text) s₃) (hclose : Spaced ['\x7d'] s₄) :
      Spelled 9 (.object (members.map MemberText.pair)) (s₁ ++ (s₂ ++ (s₃ ++ s₄)))
  | parens {t : Term} {s₁ s₂ s₃ : List Char} (hopen : Spaced ['('] s₁) (h : Spelled 0 t s₂)
      (hbare : ∀ name, t ≠ .parameter name) (hclose : Spaced [')'] s₃) :
      Spelled 9 t (s₁ ++ (s₂ ++ s₃))

theorem Term.Spelled.loosenTo {l k : Nat} {t : Term} {s : List Char} (h : Spelled k t s)
    (hl : l ≤ k) (hk : k ≤ 9) : Spelled l t s := by
  induction k with
  | zero =>
    obtain rfl : l = 0 := by omega
    exact h
  | succ k ih =>
    rcases Nat.lt_or_eq_of_le hl with hlt | rfl
    · exact ih (.loosen (by omega) h) (by omega) (by omega)
    · exact h

/-- A blank before a text belongs to its first token. -/
theorem Term.Spelled.afterBlank {l : Nat} {t : Term} {s : List Char} (h : Spelled l t s) :
    Spelled l t (' ' :: s) := by
  induction h with
  | loosen hl _ ih => exact .loosen hl ih
  | binary op _ hsign hright ih _ => exact .binary op ih hsign hright
  | not hsign h _ => exact .not hsign.afterBlank h
  | minus hsign h _ => exact .minus hsign.afterBlank h
  | plus hsign h _ => exact .plus hsign.afterBlank h
  | cast htype hopen hname hclose h _ => exact .cast htype hopen.afterBlank hname hclose h
  | member _ hpoint hlabel hname ih => exact .member ih hpoint hlabel hname
  | call _ hpoint hlabel hname hopen harguments hlist hclose ih _ =>
    exact .call ih hpoint hlabel hname hopen harguments hlist hclose
  | literal hv h => exact .literal hv h.afterBlank
  | null h => exact .null h.afterBlank
  | parameter hname hword h => exact .parameter hname hword h.afterBlank
  | object hnew hopen hsome hframe hvalues hlist hclose _ =>
    exact .object hnew.afterBlank hopen hsome hframe hvalues hlist hclose
  | parens hopen h hbare hclose _ => exact .parens hopen.afterBlank h hbare hclose

/-! ## 3. First characters -/

/-- A character that a term of a level can start with. -/
def isOpening (l : Nat) (c : Char) : Bool :=
  isNameStart c || c.isDigit || c = '"' || c = '\x27' || c = '('
    || (l ≤ 7 && (c = '!' || c = '-' || c = '+'))

theorem isOpening_mono {l k : Nat} (hlk : l ≤ k) {c : Char} (h : isOpening k c = true) :
    isOpening l c = true := by
  simp only [isOpening, Bool.or_eq_true, Bool.and_eq_true, decide_eq_true_eq] at h ⊢
  rcases h with h | ⟨hk, h⟩
  · exact .inl h
  · exact .inr ⟨by omega, h⟩

theorem isOpening_of_isNameStart {c : Char} (h : isNameStart c = true) (l : Nat) :
    isOpening l c = true := by simp [isOpening, h]

theorem next?_of_name {n : String} (hn : isName n = true) {s : List Char} (h : Spaced n.toList s)
    (rest : List Char) : ∃ c, next? (s ++ rest) = some c ∧ isNameStart c = true := by
  obtain ⟨c, cs, hcons, hc, -⟩ := isName_cons hn
  rw [hcons] at h
  exact ⟨c, h.next? (isGap_of_isNameStart hc) rest, hc⟩

theorem Spaced.next?_self {c : Char} {cs s : List Char} (h : Spaced (c :: cs) s)
    (hc : isGap c = false) : EntityQuery.next? s = some c := by
  have happend := h.next? hc []
  rwa [List.append_nil] at happend

/-- The token of a literal is a word, or it starts with a digit or a quote. -/
theorem Literal.Spelled.cases_token {v : Literal} {token : List Char} (hv : v.Spelled token) :
    token = "true".toList ∨ token = "false".toList ∨
      ∃ c cs, token = c :: cs ∧ (c.isDigit = true ∨ c = '"' ∨ c = '\x27') := by
  have hdigits : ∀ n, ∃ c cs, Nat.toDigits 10 n = c :: cs ∧ c.isDigit = true := by
    intro n
    obtain ⟨c, cs, hcons⟩ := List.exists_cons_of_ne_nil (Nat.toDigits_ne_nil (b := 10) (n := n))
    exact ⟨c, cs, hcons, isDigit_of_mem_toDigits c (by rw [hcons]; exact List.mem_cons_self)⟩
  cases hv with
  | bool b =>
    cases b with
    | false => exact .inr (.inl rfl)
    | true => exact .inl rfl
  | @int32 n _ =>
    obtain ⟨c, cs, hcons, hc⟩ := hdigits n
    exact .inr (.inr ⟨c, cs, hcons, .inl hc⟩)
  | @int64 n _ =>
    obtain ⟨c, cs, hcons, hc⟩ := hdigits n
    exact .inr (.inr ⟨c, cs ++ ['L'], by rw [hcons, List.cons_append], .inl hc⟩)
  | string _ => exact .inr (.inr ⟨_, _, rfl, .inr (.inl rfl)⟩)
  | char _ => exact .inr (.inr ⟨_, _, rfl, .inr (.inr rfl)⟩)

theorem Literal.Spelled.next? {v : Literal} {token : List Char} (hv : v.Spelled token)
    {s : List Char} (h : Spaced token s) :
    ∃ c, EntityQuery.next? s = some c ∧ isOpening 9 c = true ∧ c ≠ '(' := by
  rcases hv.cases_token with rfl | rfl | ⟨c, cs, rfl, hc | rfl | rfl⟩
  · exact ⟨'t', h.next?_self rfl, rfl, by decide⟩
  · exact ⟨'f', h.next?_self rfl, rfl, by decide⟩
  · refine ⟨c, h.next?_self (isGap_of_isDigit hc), by simp [isOpening, hc], ?_⟩
    rintro rfl
    cases hc
  · exact ⟨'"', h.next?_self rfl, rfl, by decide⟩
  · exact ⟨'\x27', h.next?_self rfl, rfl, by decide⟩

/-- **What the text of a term starts with.** -/
theorem Term.Spelled.next? {l : Nat} {t : Term} {s : List Char} (h : Spelled l t s) :
    ∃ c, EntityQuery.next? s = some c ∧ isOpening l c = true := by
  have front : ∀ {l : Nat} {s₁ : List Char} (s₂ : List Char),
      (∃ c, EntityQuery.next? s₁ = some c ∧ isOpening l c = true) →
      ∃ c, EntityQuery.next? (s₁ ++ s₂) = some c ∧ isOpening l c = true := by
    rintro l s₁ s₂ ⟨c, hc, hopening⟩
    exact ⟨c, next?_append hc s₂, hopening⟩
  induction h with
  | loosen _ _ ih =>
    obtain ⟨c, hc, hopening⟩ := ih
    exact ⟨c, hc, isOpening_mono (Nat.le_succ _) hopening⟩
  | binary _ _ _ _ ihleft _ => exact front _ ihleft
  | not hsign _ _ => exact front _ ⟨'!', hsign.next?_self rfl, rfl⟩
  | minus hsign _ _ => exact front _ ⟨'-', hsign.next?_self rfl, rfl⟩
  | plus hsign _ _ => exact front _ ⟨'+', hsign.next?_self rfl, rfl⟩
  | cast _ hopen _ _ _ _ => exact front _ ⟨'(', hopen.next?_self rfl, rfl⟩
  | member _ _ _ _ ih => exact front _ ih
  | call _ _ _ _ _ _ _ _ ih _ => exact front _ ih
  | literal hv h =>
    obtain ⟨c, hc, hopening, -⟩ := hv.next? h
    exact ⟨c, hc, hopening⟩
  | null h => exact ⟨'n', h.next?_self rfl, rfl⟩
  | parameter hname _ h =>
    obtain ⟨c, hc, hstart⟩ := next?_of_name hname h []
    rw [List.append_nil] at hc
    exact ⟨c, hc, isOpening_of_isNameStart hstart 9⟩
  | object hnew _ _ _ _ _ _ _ => exact front _ ⟨'n', hnew.next?_self rfl, rfl⟩
  | parens hopen _ _ _ _ => exact front _ ⟨'(', hopen.next?_self rfl, rfl⟩

/-- The text of a term does not start with a character that terms cannot start with. -/
theorem Term.Spelled.next?_ne {l : Nat} {t : Term} {s : List Char} (h : Spelled l t s) {d : Char}
    (hd : isOpening l d = false) (rest : List Char) : EntityQuery.next? (s ++ rest) ≠ some d := by
  obtain ⟨c, hc, hopening⟩ := h.next?
  rw [next?_append hc rest]
  intro heq
  obtain rfl : c = d := by simpa using heq
  rw [hopening] at hd
  cases hd

theorem Term.Spelled.length_pos {l : Nat} {t : Term} {s : List Char} (h : Spelled l t s) :
    0 < s.length := by
  obtain ⟨c, hc, -⟩ := h.next?
  cases s with
  | nil => cases hc
  | cons d s => simp

/-! ## 4. What may follow -/

/-- The first characters of the signs that go on a text of a level. -/
def continuations (l : Nat) : List Char :=
  (if l < 9 then ['.'] else []) ++ '(' ::
    (Reader.levels.drop l).flatten.map fun op => op.symbol.toList.headD ' '

/-- A text of the level ends here: neither its last token nor the term goes on. -/
structure Stops (l : Nat) (rest : List Char) : Prop where
  apart : isApart rest = true
  next : ∀ c ∈ next? rest, c ∉ continuations l

theorem continuations_succ {l : Nat} (hl : l < 9) :
    ∀ c ∈ continuations (l + 1), c ∈ continuations l := by
  have hall : ∀ l < 9, (continuations (l + 1)).all (· ∈ continuations l) = true := by decide
  intro c hc
  exact of_decide_eq_true (List.all_eq_true.mp (hall l hl) c hc)

theorem Stops.succ {l : Nat} (hl : l < 9) {rest : List Char} (h : Stops l rest) :
    Stops (l + 1) rest where
  apart := h.apart
  next c hc hmem := h.next c hc (continuations_succ hl c hmem)

theorem Stops.next?_ne {l : Nat} {rest : List Char} (h : Stops l rest) {c : Char}
    (hc : c ∈ continuations l) : next? rest ≠ some c := fun heq => h.next c heq hc

theorem Stops.of_spaced {l : Nat} {c : Char} {cs s : List Char} (h : Spaced (c :: cs) s)
    (hgap : isGap c = false) (hpart : isNamePart c = false) (hpoint : c ≠ '.')
    (hc : c ∉ continuations l) (rest : List Char) : Stops l (s ++ rest) where
  apart := isApart_of_spaced h hpart hpoint rest
  next d hd := by
    rw [h.next? hgap rest] at hd
    cases hd
    exact hc

/-- A sign of a level stops the tighter ones. -/
theorem Stops.of_sign (op : BinaryOp) {s : List Char} (h : Spaced op.symbol.toList s)
    (rest : List Char) : Stops (op.level + 1) (s ++ rest) := by
  cases op <;> exact .of_spaced h (by decide) (by decide) (by decide) (by decide) rest

/-- A point with a name behind it stops an atom. -/
theorem Stops.of_point {s₁ s₂ : List Char} (hpoint : Spaced ['.'] s₁) {label : String}
    (hlabel : isName label = true) (hname : Spaced label.toList s₂) (rest : List Char) :
    Stops 9 (s₁ ++ (s₂ ++ rest)) where
  apart := by
    refine isApart_of_point hpoint ?_
    obtain ⟨c, cs, hcons, hc, -⟩ := isName_cons hlabel
    obtain ⟨g, hg, rfl⟩ := hname
    have nodigit : ∀ d : Char, isGap d = true ∨ isNameStart d = true → d.isDigit = false := by
      intro d hd
      cases hdigit : d.isDigit with
      | false => rfl
      | true => simp [isGap_of_isDigit hdigit, isNameStart_of_isDigit hdigit] at hd
    cases g with
    | nil => simpa [hcons] using nodigit c (.inr hc)
    | cons d g => simpa using nodigit d (.inl (hg d List.mem_cons_self))
  next d hd := by
    rw [hpoint.next? rfl] at hd
    cases hd
    decide

/-- So does a gap at the end. -/
theorem Stops.of_gap {g : List Char} (hg : ∀ c ∈ g, isGap c = true) (l : Nat) : Stops l g := by
  have hskip : skipGap g = [] := Reader.dropWhile_all hg
  have hnext : next? g = none := by rw [next?, hskip]; rfl
  refine ⟨?_, by simp [hnext]⟩
  cases g with
  | nil => rfl
  | cons c g =>
    have hc : isGap c = true := hg c List.mem_cons_self
    have hpoint : c ≠ '.' := by
      rintro rfl
      cases hc
    simp [isApart, isNamePart_of_isGap hc, hpoint]

theorem Further.stops {items : List (List Char)} {s rest : List Char} (h : Further items s)
    (hrest : Stops 0 rest) : Stops 0 (s ++ rest) := by
  cases h with
  | nil => exact hrest
  | cons hcomma _ =>
    rw [List.append_assoc]
    exact .of_spaced hcomma (by decide) (by decide) (by decide) (by decide) _

/-! ## 5. Casts -/

/-- What all names of a table have, a name that is found in it has. -/
theorem name_of_lookup {β : Type} {test : String → Bool} {table : List (String × β)} {n : String}
    {b : β} (h : table.lookup n = some b) (hall : ∀ entry ∈ table, test entry.1 = true) :
    test n = true := by
  obtain ⟨before, after, rfl, -⟩ := List.lookup_eq_some_iff.mp h
  exact hall (n, b) (by simp)

theorem ValueType.isName_of_ofKeyword? {keyword : String} {type : ValueType}
    (h : ofKeyword? keyword = some type) : isName keyword = true :=
  name_of_lookup h (by decide)

theorem ValueType.ofKeyword?_of_isKeyword {n : String} (h : isKeyword n = true) :
    ofKeyword? n = none := by
  simp only [isKeyword, Bool.or_eq_true, decide_eq_true_eq] at h
  rcases h with ((rfl | rfl) | rfl) | rfl <;> rfl

namespace Reader

theorem castType_of_spaced {keyword : String} {type : ValueType}
    (htype : ValueType.ofKeyword? keyword = some type) {s : List Char}
    (h : Spaced keyword.toList s) {rest : List Char} (hrest : isApart rest = true) :
    castType (s ++ rest) = .ok type rest := by
  have hname : name (s ++ rest) = .ok keyword rest :=
    name_of_spaced (ValueType.isName_of_ofKeyword? htype) h hrest
  simp only [castType, here, bind_apply, hname, htype]
  rfl

/-- A type is read off a name, and the name is all that is read. -/
theorem castType_of_name {n : String} (hn : isName n = true) {s rest : List Char}
    (h : Spaced n.toList s) (hrest : isApart rest = true) {type : ValueType} {r : List Char}
    (hok : castType (s ++ rest) = .ok type r) :
    ValueType.ofKeyword? n = some type ∧ r = rest := by
  have hname : name (s ++ rest) = .ok n rest := name_of_spaced hn h hrest
  simp only [castType, here, bind_apply, hname] at hok
  cases htype : ValueType.ofKeyword? n with
  | some type' =>
    rw [htype] at hok
    cases hok
    exact ⟨rfl, rfl⟩
  | none =>
    rw [htype] at hok
    cases hok

/-- A word that stands for something else is no type. -/
theorem castType_ne_ok_of_word {n : String} (hn : isName n = true) (hword : isKeyword n = true)
    {s rest : List Char} (h : Spaced n.toList s) (hrest : isApart rest = true) {type : ValueType}
    {r : List Char} : castType (s ++ rest) ≠ .ok type r := by
  intro hok
  have htype := (castType_of_name hn h hrest hok).1
  rw [ValueType.ofKeyword?_of_isKeyword hword] at htype
  cases htype

theorem fails_castType {s : List Char} (h : ∀ c ∈ next? s, isNameStart c = false) :
    Fails castType s := Fails.after rfl ((fails_name h).bind _)

/-- No type is read where the text starts with no name. -/
theorem castType_ne_ok {s : List Char} {c : Char} (hc : next? s = some c)
    (hstart : isNameStart c = false) {type : ValueType} {r : List Char} :
    castType s ≠ .ok type r := by
  have hfails : Fails castType s := by
    refine fails_castType fun d hd => ?_
    rw [hc] at hd
    cases hd
    exact hstart
  obtain ⟨fault, hfault⟩ := hfails
  rw [hfault]
  intro h
  cases h

/-- A literal is no type. -/
theorem castType_ne_ok_of_literal {v : Literal} {token s rest : List Char} (hv : v.Spelled token)
    (h : Spaced token s) (hrest : isApart rest = true) {type : ValueType} {r : List Char} :
    castType (s ++ rest) ≠ .ok type r := by
  rcases hv.cases_token with rfl | rfl | ⟨c, cs, rfl, hc | rfl | rfl⟩
  · exact castType_ne_ok_of_word (by decide) (by decide) h hrest
  · exact castType_ne_ok_of_word (by decide) (by decide) h hrest
  · exact castType_ne_ok (h.next? (isGap_of_isDigit hc) rest) (isNameStart_of_isDigit hc)
  · exact castType_ne_ok (h.next? rfl rest) rfl
  · exact castType_ne_ok (h.next? rfl rest) rfl

/-- After the name of a type comes what follows the first of two parts, if the first is a name. -/
theorem next?_of_castType {type : ValueType} {r s₁ s₂ rest : List Char} {bare : Prop}
    (hfirst : ∀ {rest : List Char}, isApart rest = true → castType (s₁ ++ rest) = .ok type r →
      (bare ∧ r = rest) ∨ next? r ≠ some ')')
    (hapart : isApart (s₂ ++ rest) = true) {c : Char} (hnext : next? (s₂ ++ rest) = some c)
    (hc : c ≠ ')') (hok : castType ((s₁ ++ s₂) ++ rest) = .ok type r) : next? r ≠ some ')' := by
  rw [List.append_assoc] at hok
  rcases hfirst hapart hok with ⟨-, rfl⟩ | hne
  · rw [hnext]
    intro heq
    cases heq
    exact hc rfl
  · exact hne

/-- **A type and a closing parenthesis are read off a bare parameter at most.** In the other cases
    something else than the parenthesis follows the name of the type. -/
theorem castType_of_spelled {l : Nat} {t : Term} {s : List Char} (h : Term.Spelled l t s)
    {rest : List Char} (hrest : isApart rest = true) {type : ValueType} {r : List Char}
    (hok : castType (s ++ rest) = .ok type r) :
    ((∃ n, t = .parameter n) ∧ r = rest) ∨ next? r ≠ some ')' := by
  induction h generalizing rest with
  | loosen _ _ ih => exact ih hrest hok
  | @binary op left right s₁ s₂ s₃ _ hsign _ ihleft _ =>
    have hstops : Stops (op.level + 1) (s₂ ++ (s₃ ++ rest)) := .of_sign op hsign _
    obtain ⟨c, hnext, hc⟩ : ∃ c, next? (s₂ ++ (s₃ ++ rest)) = some c ∧ c ≠ ')' := by
      cases op <;> exact ⟨_, hsign.next? (by decide) _, by decide⟩
    rw [← List.append_assoc] at hstops hnext
    exact .inr (next?_of_castType ihleft hstops.apart hnext hc hok)
  | not hsign _ _ =>
    rw [List.append_assoc] at hok
    exact absurd hok (castType_ne_ok (hsign.next? rfl _) rfl)
  | minus hsign _ _ =>
    rw [List.append_assoc] at hok
    exact absurd hok (castType_ne_ok (hsign.next? rfl _) rfl)
  | plus hsign _ _ =>
    rw [List.append_assoc] at hok
    exact absurd hok (castType_ne_ok (hsign.next? rfl _) rfl)
  | cast _ hopen _ _ _ _ =>
    rw [List.append_assoc] at hok
    exact absurd hok (castType_ne_ok (hopen.next? rfl _) rfl)
  | @member t label s₁ s₂ s₃ _ hpoint hlabel hname ih =>
    have hstops := Stops.of_point hpoint hlabel hname rest
    have hnext := hpoint.next? rfl (s₃ ++ rest)
    rw [← List.append_assoc] at hstops hnext
    exact .inr (next?_of_castType ih hstops.apart hnext (by decide) hok)
  | @call t label arguments s₁ s₂ s₃ s₄ s₅ s₆ _ hpoint hlabel hname _ _ _ _ ih _ =>
    have hstops := Stops.of_point hpoint hlabel hname (s₄ ++ (s₅ ++ s₆) ++ rest)
    have hnext := hpoint.next? rfl (s₃ ++ (s₄ ++ (s₅ ++ s₆)) ++ rest)
    rw [← List.append_assoc s₃, ← List.append_assoc] at hstops
    rw [← List.append_assoc] at hnext
    exact .inr (next?_of_castType ih hstops.apart hnext (by decide) hok)
  | literal hv h => exact absurd hok (castType_ne_ok_of_literal hv h hrest)
  | null h => exact absurd hok (castType_ne_ok_of_word (by decide) (by decide) h hrest)
  | parameter hname _ h => exact .inl ⟨⟨_, rfl⟩, (castType_of_name hname h hrest hok).2⟩
  | @object _ s₁ s₂ s₃ s₄ hnew hopen _ _ _ _ _ _ =>
    rw [List.append_assoc, List.append_assoc] at hok
    have hapart := isApart_of_spaced hopen (by decide) (by decide) (s₃ ++ s₄ ++ rest)
    exact absurd hok (castType_ne_ok_of_word (by decide) (by decide) hnew hapart)
  | parens hopen _ _ _ _ =>
    rw [List.append_assoc] at hok
    exact absurd hok (castType_ne_ok (hopen.next? rfl _) rfl)

/-- Types are read with an error at worst. -/
theorem castType_ok_or_fails (s : List Char) : (∃ type r, castType s = .ok type r) ∨
    Fails castType s := by
  cases hname : name s with
  | ok n rest =>
    cases htype : ValueType.ofKeyword? n with
    | some type =>
      refine .inl ⟨type, rest, ?_⟩
      simp only [castType, here, bind_apply, hname, htype]
      rfl
    | none =>
      refine .inr ⟨⟨s, .unexpected .symbol⟩, ?_⟩
      simp only [castType, here, bind_apply, hname, htype]
      rfl
  | error fault => exact .inr (.after rfl (Fails.bind ⟨fault, hname⟩ _))
  | failure fault =>
    exfalso
    unfold name at hname
    split at hname
    · split at hname <;> cases hname
    · cases hname

/-- **What starts with an atom is no cast.** -/
theorem fails_castTo {l : Nat} (hl : 8 ≤ l) {t : Term} {s : List Char} (h : Term.Spelled l t s)
    (unary : Reader Term) (rest : List Char) : Fails (castTo unary) (s ++ rest) := by
  have noparen : ∀ {s : List Char} {c : Char}, next? s = some c → c ≠ '(' →
      Fails (castTo unary) s := by
    intro s c hnext hc
    refine ((fails_symbol rfl ?_).bind _).bind _
    rw [hnext]
    intro heq
    cases heq
    exact hc rfl
  induction h generalizing rest with
  | @loosen l _ _ _ h ih => exact ih (by omega) rest
  | binary op _ _ _ _ _ =>
    have := op.level_lt
    omega
  | not _ _ _ => omega
  | minus _ _ _ => omega
  | plus _ _ _ => omega
  | cast _ _ _ _ _ _ => omega
  | member _ _ _ _ ih =>
    rw [List.append_assoc]
    exact ih hl _
  | call _ _ _ _ _ _ _ _ ih _ =>
    rw [List.append_assoc]
    exact ih hl _
  | literal hv h =>
    obtain ⟨c, hc, -, hne⟩ := hv.next? h
    exact noparen (next?_append hc rest) hne
  | null h => exact noparen (h.next? rfl rest) (by decide)
  | parameter hname _ h =>
    obtain ⟨c, hnext, hc⟩ := next?_of_name hname h rest
    exact noparen hnext (by rintro rfl; cases hc)
  | object hnew _ _ _ _ _ _ _ =>
    rw [List.append_assoc]
    exact noparen (hnew.next? rfl _) (by decide)
  | @parens t s₁ s₂ s₃ hopen h hbare hclose _ =>
    rw [List.append_assoc, List.append_assoc]
    refine Fails.bind ?_ _
    refine .after (symbol_of_spaced rfl hopen rfl (s₂ ++ (s₃ ++ rest))) ?_
    rcases castType_ok_or_fails (s₂ ++ (s₃ ++ rest)) with ⟨type, r, hok⟩ | hfails
    · have hapart : isApart (s₃ ++ rest) = true :=
        isApart_of_spaced hclose (by decide) (by decide) rest
      rcases castType_of_spelled h hapart hok with ⟨⟨n, rfl⟩, -⟩ | hne
      · exact absurd rfl (hbare n)
      · exact .after hok ((fails_symbol rfl hne).bind _)
    · exact hfails.bind _

end Reader

end EntityQuery
