import EntityQuery.Proofs.Parsed
import EntityQuery.Proofs.Spelling.Levels

/-!
What the text of a term spells.

* `Literal.isLegible`, `Term.isLegible` -- the literals and nodes whose text a reader can read;
* `Term.spoken` -- the term that is read off the text of a term: literals have their own types, and
  a call on a type is one on a name, since a text does not tell them apart;
* `Term.firmness` -- how tightly the text of a term holds together: a binary operation has its
  parentheses, and a negative number starts with a minus;
* `Term.spelled_text` -- **the text of a legible term spells the term that it speaks of**.
-/
namespace EntityQuery

open Text

/-! ## 1. Literals -/

namespace Literal

/-- A literal whose text is read as the literal: a truth value, an integer other than the least of
    its width, a text without backslash, or a character other than backslash and single quote. -/
def isLegible : Literal → Bool
  | .bool _ => true
  | .int32 n => n ≠ Int32.minValue
  | .int64 n => n ≠ Int64.minValue
  | .string s => '\\' ∉ s.toList
  | .char c => c ≠ '\x27' && c ≠ '\\'
  | _ => false

/-- A negative integer. -/
def isNegative : Literal → Bool
  | .int32 n => n.toInt < 0
  | .int64 n => n.toInt < 0
  | _ => false

theorem quoted_escapeQuotes {cs : List Char} (h : '\\' ∉ cs) : Quoted '"' cs (escapeQuotes cs) := by
  induction cs with
  | nil => exact .nil
  | cons c cs ih =>
    have hslash : c ≠ '\\' := fun heq => h (heq ▸ List.mem_cons_self)
    have hrest := ih fun hmem => h (List.mem_cons_of_mem c hmem)
    by_cases hc : c = '"'
    · subst hc
      exact .escaped '"' hrest
    · have happend : escapeQuotes (c :: cs) = c :: escapeQuotes cs := by simp [escapeQuotes, hc]
      rw [happend]
      exact .plain hc hslash hrest

/-- The text of an integer: its digits, after a minus if it is negative. -/
theorem toList_toString (a : Int) : (toString a).toList =
    if 0 ≤ a then Nat.toDigits 10 a.toNat else '-' :: Nat.toDigits 10 (-a).toNat := by
  rw [Int.toString_eq_repr, Int.repr_eq_if]
  split <;> simp

/-- **The text of a literal that is not negative spells it.** -/
theorem spelled_text {v : Literal} (h : v.isLegible = true) (hneg : v.isNegative = false) :
    v.Spelled v.text.toList := by
  cases v with
  | bool b => exact .bool b
  | int32 n =>
    have hn : 0 ≤ n.toInt := Int.not_lt.mp (of_decide_eq_false hneg)
    obtain ⟨hlt, hself⟩ := int32_of_nonneg hn
    have hspelled := Spelled.int32 hlt
    rw [hself] at hspelled
    rw [text, toList_toString, if_pos hn]
    exact hspelled
  | int64 n =>
    have hn : 0 ≤ n.toInt := Int.not_lt.mp (of_decide_eq_false hneg)
    obtain ⟨hlt, hself⟩ := int64_of_nonneg hn
    have hspelled := Spelled.int64 hlt
    rw [hself] at hspelled
    rw [text, String.toList_append, toList_toString, if_pos hn]
    exact hspelled
  | string s =>
    have hspelled := Spelled.string (quoted_escapeQuotes (of_decide_eq_true h))
    rw [String.ofList_toList] at hspelled
    have htext : (Literal.string s).text.toList = '"' :: (escapeQuotes s.toList ++ ['"']) := by
      simp [text]
    rw [htext]
    exact hspelled
  | char c =>
    simp only [isLegible, Bool.and_eq_true, decide_eq_true_eq] at h
    have htext : (Literal.char c).text.toList = '\x27' :: ([c] ++ ['\x27']) := by simp [text]
    rw [htext]
    exact .char (.plain h.1 h.2 .nil)
  | _ => cases h

/-- **The text of a negative literal is a minus and the text of its positive.** -/
theorem spelled_negative {v : Literal} (h : v.isLegible = true) (hneg : v.isNegative = true) :
    ∃ (w : Literal) (token : List Char), w.Spelled token ∧ w.neg? = some v ∧ v.text.toList = '-' :: token := by
  cases v with
  | int32 n =>
    have hn : n.toInt < 0 := of_decide_eq_true hneg
    have hmin : n.toInt ≠ -2147483648 := fun heq =>
      of_decide_eq_true h (Int32.toInt_inj.mp heq)
    have hlt : (-n.toInt).toNat < twoPow 31 := by
      have hbound : -2 ^ 31 ≤ n.toInt := n.le_toInt
      have hpow : twoPow 31 = 2147483648 := rfl
      omega
    have hvalue : -((-n.toInt).toNat : Int) = n.toInt := by omega
    have hself : -Int32.ofNat (-n.toInt).toNat = n := by
      rw [← Int32.ofInt_eq_ofNat, Int32.neg_ofInt, hvalue, Int32.ofInt_toInt]
    refine ⟨_, _, .int32 hlt, ?_, ?_⟩
    · rw [neg?, if_neg (int32_ofNat_ne_minValue hlt), hself]
    · rw [text, toList_toString, if_neg (by omega)]
  | int64 n =>
    have hn : n.toInt < 0 := of_decide_eq_true hneg
    have hmin : n.toInt ≠ -9223372036854775808 := fun heq =>
      of_decide_eq_true h (Int64.toInt_inj.mp heq)
    have hlt : (-n.toInt).toNat < twoPow 63 := by
      have hbound : -2 ^ 63 ≤ n.toInt := n.le_toInt
      have hpow : twoPow 63 = 9223372036854775808 := rfl
      omega
    have hvalue : -((-n.toInt).toNat : Int) = n.toInt := by omega
    have hself : -Int64.ofNat (-n.toInt).toNat = n := by
      rw [← Int64.ofInt_eq_ofNat, Int64.neg_ofInt, hvalue, Int64.ofInt_toInt]
    refine ⟨_, _, .int64 hlt, ?_, ?_⟩
    · rw [neg?, if_neg (int64_ofNat_ne_minValue hlt), hself]
    · rw [text, String.toList_append, toList_toString, if_neg (by omega)]
      rfl
  | _ => cases hneg

end Literal

/-! ## 2. Terms -/

/-- The operators before an operand whose text is read: those with a sign of their own, and casts to
    the types whose name is a keyword for them. -/
def UnaryOp.isLegible : UnaryOp → Bool
  | .not => true
  | .negate => true
  | .plus => true
  | .convert type => type ∈ [.bool, .double, .decimal, .string, .char, .object]
  | _ => false

namespace Term

/-- How tightly the text of a term holds together, as a level of `Term.Spelled`. -/
def firmness : Term → Nat
  | .constant (some v) _ => if v.isNegative then 7 else 9
  | .unary _ _ => 7
  | .member _ _ => 8
  | .call _ _ _ => 8
  | .ownerCall _ _ => 8
  | _ => 9

/-- A term that a member or a call can follow: no operator stands before it, and no minus. -/
def isTarget (t : Term) : Bool := t.firmness ≠ 7

/-- A name that can stand for a parameter or a type on which something is called. -/
def isFreeName (n : String) : Bool := isName n && !isKeyword n

/-- A node whose text can be read. -/
def isLegible : Term → Bool
  | .constant (some v) _ => v.isLegible
  | .constant none _ => true
  | .parameter name => isFreeName name
  | .member target label => isName label && target.isTarget
  | .unary op operand => op.isLegible && !(op = .negate && operand.isNumber)
  | .binary _ _ _ => true
  | .call receiver method _ =>
    isName method.name && method.owner.all isName && receiver.isTarget
  | .ownerCall method _ => isName method.name && method.owner.any isFreeName
  | .object members => !members.isEmpty && members.all fun m => isName m.1
  | _ => false

mutual
/-- The term that is read off the text of a term. -/
def spoken : Term → Term
  | .constant (some v) _ => .ofLiteral v
  | .constant none _ => .null .object
  | .member target label => .member (spoken target) label
  | .unary op operand => .unary op (spoken operand)
  | .binary op left right => .binary op (spoken left) (spoken right)
  | .call receiver ⟨some owner, name⟩ arguments =>
    .call (.member (spoken receiver) owner) ⟨none, name⟩ (spokenAll arguments)
  | .call receiver ⟨none, name⟩ arguments =>
    .call (spoken receiver) ⟨none, name⟩ (spokenAll arguments)
  | .ownerCall ⟨some owner, name⟩ arguments =>
    .call (.parameter owner) ⟨none, name⟩ (spokenAll arguments)
  | .object members => .object (spokenIn members)
  | t => t

/-- The same for terms in turn. -/
def spokenAll : List Term → List Term
  | [] => []
  | t :: rest => spoken t :: spokenAll rest

/-- The same for members. -/
def spokenIn : List (String × Term) → List (String × Term)
  | [] => []
  | (label, t) :: rest => (label, spoken t) :: spokenIn rest
end

theorem spokenAll_eq_map (ts : List Term) : spokenAll ts = ts.map spoken := by
  induction ts with
  | nil => rfl
  | cons t ts ih => rw [spokenAll, ih, List.map_cons]

theorem spokenIn_eq_map (ms : List (String × Term)) :
    spokenIn ms = ms.map fun m => (m.1, m.2.spoken) := by
  induction ms with
  | nil => rfl
  | cons m ms ih =>
    rw [spokenIn, ih]
    rfl

theorem texts_eq_map (ts : List Term) : texts ts = ts.map text := by
  induction ts with
  | nil => rfl
  | cons t ts ih => rw [texts, ih, List.map_cons]

theorem memberTexts_eq_map (ms : List (String × Term)) :
    memberTexts ms = ms.map fun m => m.1 ++ " = " ++ m.2.text := by
  induction ms with
  | nil => rfl
  | cons m ms ih =>
    rw [memberTexts, ih]
    rfl

theorem firmness_le (t : Term) : t.firmness ≤ 9 := by
  unfold firmness
  split
  · split <;> decide
  all_goals decide

theorem seven_le_firmness (t : Term) : 7 ≤ t.firmness := by
  unfold firmness
  split
  · split <;> decide
  all_goals decide

theorem eight_le_firmness {t : Term} (h : t.isTarget = true) : 8 ≤ t.firmness := by
  have hne : t.firmness ≠ 7 := of_decide_eq_true h
  have hle := t.seven_le_firmness
  omega

/-! ## 3. Lists -/

/-- All items but the first with a blank before them. -/
def blanked {α : Type} (blank : α → α) : List α → List α
  | [] => []
  | a :: rest => a :: rest.map blank

theorem forall_blanked {α : Type} {P : α → Prop} {blank : α → α} {items : List α}
    (h : ∀ a ∈ items, P a) (hblank : ∀ a, P a → P (blank a)) : ∀ a ∈ blanked blank items, P a := by
  cases items with
  | nil => simp [blanked]
  | cons b items =>
    intro a ha
    rcases List.mem_cons.mp ha with rfl | ha
    · exact h a List.mem_cons_self
    · obtain ⟨b', hb', rfl⟩ := List.mem_map.mp ha
      exact hblank b' (h b' (List.mem_cons_of_mem b hb'))

theorem map_blanked {α β : Type} {f : α → β} {blank : α → α} (h : ∀ a, f (blank a) = f a)
    (items : List α) : (blanked blank items).map f = items.map f := by
  cases items with
  | nil => rfl
  | cons a items => simp [blanked, Function.comp_def, h]

theorem intercalate_cons (sep first : List Char) (items : List (List Char)) :
    sep.intercalate (first :: items) = first ++ items.flatMap fun item => sep ++ item := by
  induction items generalizing first with
  | nil => simp
  | cons item items ih =>
    rw [List.intercalate_cons_cons, ih, List.flatMap_cons]
    simp only [List.append_assoc]

/-- Items with a comma and a blank between them are a list. -/
theorem listed_intercalate {α : Type} (text : α → List Char) (blank : α → α)
    (hblank : ∀ a, text (blank a) = ' ' :: text a) (items : List α) :
    Listed ((blanked blank items).map text) ([',', ' '].intercalate (items.map text)) := by
  have hfurther : ∀ items : List α, Further ((items.map blank).map text)
      ((items.map text).flatMap fun item => [',', ' '] ++ item) := by
    intro items
    induction items with
    | nil => exact .nil
    | cons a items ih =>
      have hcons : Further (text (blank a) :: (items.map blank).map text)
          ([','] ++ (text (blank a) ++ _)) := .cons (.bare [',']) ih
      simpa [hblank] using hcons
  cases items with
  | nil => rfl
  | cons a items =>
    rw [List.map_cons, intercalate_cons]
    exact ⟨_, hfurther items, rfl⟩

/-- A blank before the list belongs to its first item. -/
theorem listed_afterBlank {α : Type} {text : α → List Char} {blank : α → α}
    (hblank : ∀ a, text (blank a) = ' ' :: text a) {items : List α} (hsome : items ≠ [])
    {s : List Char} (h : Listed ((blanked blank items).map text) s) :
    Listed ((items.map blank).map text) (' ' :: s) := by
  cases items with
  | nil => exact absurd rfl hsome
  | cons a items =>
    obtain ⟨more, hmore, rfl⟩ := h
    exact ⟨more, hmore, by rw [hblank, List.cons_append]⟩

/-! ## 4. Texts -/

/-- The arguments of a call, as their texts are listed. -/
theorem spelled_arguments {arguments : List Term}
    (h : ∀ t ∈ arguments, Spelled 0 t.spoken t.text.toList) :
    ∃ args : List (Term × List Char), args.map Prod.fst = arguments.map spoken ∧
      (∀ a ∈ args, Spelled 0 a.1 a.2) ∧
      Listed (args.map Prod.snd) (", ".intercalate (texts arguments)).toList := by
  let items := arguments.map fun t => (t.spoken, t.text.toList)
  let blank (a : Term × List Char) : Term × List Char := (a.1, ' ' :: a.2)
  have hitems : ∀ a ∈ items, Spelled 0 a.1 a.2 := List.forall_mem_map.mpr h
  have hlist : (", ".intercalate (texts arguments)).toList =
      [',', ' '].intercalate (items.map Prod.snd) := by
    rw [String.toList_intercalate, texts_eq_map]
    simp [items, Function.comp_def]
  refine ⟨blanked blank items, ?_, forall_blanked hitems fun _ ha => ha.afterBlank, ?_⟩
  · have hterms : ∀ a, (blank a).1 = a.1 := fun _ => rfl
    rw [map_blanked hterms]
    simp [items, Function.comp_def]
  · rw [hlist]
    exact listed_intercalate Prod.snd blank (fun _ => rfl) items

/-- The members of an object, as their texts are listed after a blank. -/
theorem spelled_members {members : List (String × Term)} (hsome : members ≠ [])
    (hnames : ∀ m ∈ members, isName m.1 = true)
    (h : ∀ m ∈ members, Spelled 0 m.2.spoken m.2.text.toList) :
    ∃ texts : List MemberText, texts.map MemberText.pair = members.map (fun m => (m.1, m.2.spoken)) ∧
      (∀ m ∈ texts, m.IsFramed) ∧ (∀ m ∈ texts, Spelled 0 m.value m.valueText) ∧
      Listed (texts.map MemberText.text) (' ' :: (", ".intercalate (memberTexts members)).toList) := by
  let items := members.map fun m =>
    MemberText.mk m.1 m.2.spoken m.1.toList [' ', '='] (' ' :: m.2.text.toList)
  let blank (m : MemberText) : MemberText := { m with labelText := ' ' :: m.labelText }
  have hframed : ∀ m ∈ items, m.IsFramed :=
    List.forall_mem_map.mpr fun m hm => ⟨hnames m hm, .bare _, .blank _⟩
  have hvalues : ∀ m ∈ items, Spelled 0 m.value m.valueText :=
    List.forall_mem_map.mpr fun m hm => (h m hm).afterBlank
  have hlist : (", ".intercalate (memberTexts members)).toList =
      [',', ' '].intercalate (items.map MemberText.text) := by
    rw [String.toList_intercalate, memberTexts_eq_map]
    simp [items, Function.comp_def, MemberText.text]
  have hblank : ∀ m, (blank m).text = ' ' :: m.text := fun _ => rfl
  refine ⟨items.map blank, by simp [items, blank, Function.comp_def, MemberText.pair],
    List.forall_mem_map.mpr fun m hm => ?_, List.forall_mem_map.mpr hvalues, ?_⟩
  · obtain ⟨hname, hlabel, hsign⟩ := hframed m hm
    exact ⟨hname, hlabel.afterBlank, hsign⟩
  · rw [hlist]
    have hitems : items ≠ [] := by simpa [items] using hsome
    exact listed_afterBlank hblank hitems (listed_intercalate MemberText.text blank hblank items)

theorem spoken_ne_parameter {t : Term} (h : ∀ name, t ≠ .parameter name) (name : String) :
    t.spoken ≠ .parameter name := by
  unfold spoken
  split <;> simp_all [ofLiteral, null]

theorem isNumber_spoken (t : Term) : t.spoken.isNumber = t.isNumber := by
  unfold spoken
  split <;> rfl

/-- The name of a type that can be cast to is a keyword for it. -/
theorem ofKeyword?_of_isLegible {type : ValueType} (h : (UnaryOp.convert type).isLegible = true) :
    ValueType.ofKeyword? type.text = some type := by
  simp only [UnaryOp.isLegible, List.mem_cons, List.not_mem_nil, or_false, decide_eq_true_eq] at h
  rcases h with rfl | rfl | rfl | rfl | rfl | rfl <;> rfl

/-- A constant spells its literal, with its own type. -/
theorem spelled_constant {v : Literal} (h : v.isLegible = true) (type : ValueType) :
    Spelled (firmness (.constant (some v) type)) (.ofLiteral v) v.text.toList := by
  cases hneg : v.isNegative with
  | false =>
    rw [firmness, hneg]
    exact .literal (v.spelled_text h hneg) (.bare _)
  | true =>
    obtain ⟨w, token, hw, hminus, htext⟩ := v.spelled_negative h hneg
    have hnegated : negated (.ofLiteral w) = .ofLiteral v := by simp only [ofLiteral, negated, hminus]
    have hspelled := Spelled.minus (.bare ['-'])
      ((Spelled.literal hw (.bare token)).loosenTo (by decide) (by decide))
    rw [hnegated] at hspelled
    rw [firmness, hneg, htext]
    exact hspelled

/-- The operator of a legible term before a term that is spelled. -/
theorem spelled_unary {op : UnaryOp} (hop : op.isLegible = true) {t : Term} {s : String}
    (hnumber : op = .negate → t.isNumber = false) (h : Spelled 7 t s.toList) :
    Spelled 7 (.unary op t) (unaryText op s).toList := by
  cases op with
  | not =>
    have hspelled := Spelled.not (.bare ['!']) h
    simpa [unaryText] using hspelled
  | negate =>
    have hspelled := Spelled.minus (.bare ['-']) h
    rw [negated_of_not_isNumber (hnumber rfl)] at hspelled
    simpa [unaryText] using hspelled
  | plus =>
    have hspelled := Spelled.plus (.bare ['+']) h
    simpa [unaryText] using hspelled
  | convert type =>
    have hspelled := Spelled.cast (ofKeyword?_of_isLegible hop) (.bare ['(']) (.bare _) (.bare [')']) h
    simpa [unaryText] using hspelled
  | _ => cases hop

/-- **The text of a legible term spells the term that it speaks of.** -/
theorem spelled_text {t : Term} (h : t.every isLegible = true) :
    Spelled t.firmness t.spoken t.text.toList := by
  induction t with
  | constant value type =>
    cases value with
    | none => exact .null (.bare _)
    | some v => exact spelled_constant h type
  | parameter name =>
    simp only [every, isLegible, isFreeName, Bool.and_eq_true, Bool.not_eq_true'] at h
    exact .parameter h.1 h.2 (.bare _)
  | member target label ih =>
    simp only [every, isLegible, Bool.and_eq_true] at h
    obtain ⟨⟨hlabel, htarget⟩, hlegible⟩ := h
    have hspelled := (ih hlegible).loosenTo (eight_le_firmness htarget) target.firmness_le
    have hmember := Spelled.member hspelled (.bare ['.']) hlabel (.bare _)
    simpa [text, spoken, firmness] using hmember
  | unary op operand ih =>
    simp only [every, isLegible, Bool.and_eq_true] at h
    obtain ⟨⟨hop, hnumber⟩, hlegible⟩ := h
    have hspelled := (ih hlegible).loosenTo operand.seven_le_firmness operand.firmness_le
    have hplain : op = .negate → operand.spoken.isNumber = false := by
      intro hnegate
      rw [isNumber_spoken]
      simpa [hnegate] using hnumber
    exact spelled_unary hop hplain hspelled
  | binary op left right ihleft ihright =>
    simp only [every, Bool.and_eq_true] at h
    have hlevel := op.level_lt
    have hleft := (ihleft h.1.2).loosenTo (Nat.le_trans (Nat.le_of_lt hlevel) left.seven_le_firmness)
      left.firmness_le
    have hright := (ihright h.2).loosenTo (Nat.le_trans hlevel right.seven_le_firmness)
      right.firmness_le
    have hbinary := (Spelled.binary op hleft (.blank _) hright.afterBlank).loosenTo (Nat.zero_le _)
      (by omega)
    have hparens := Spelled.parens (.bare ['(']) hbinary (fun name heq => by cases heq) (.bare [')'])
    simpa [text, spoken, firmness] using hparens
  | call receiver method arguments ihreceiver ihargs =>
    simp only [every, isLegible, Bool.and_eq_true, everyIn_iff] at h
    obtain ⟨⟨⟨⟨hname, howner⟩, htarget⟩, hreceiver⟩, harguments⟩ := h
    have hspelled := (ihreceiver hreceiver).loosenTo (eight_le_firmness htarget) receiver.firmness_le
    obtain ⟨args, hterms, hargs, hlist⟩ := spelled_arguments fun t ht =>
      (ihargs t ht (harguments t ht)).loosenTo (Nat.zero_le _) t.firmness_le
    obtain ⟨owner, name⟩ := method
    cases owner with
    | none =>
      have hcall := Spelled.call hspelled (.bare ['.']) hname (.bare _) (.bare ['(']) hargs hlist
        (.bare [')'])
      rw [hterms] at hcall
      simpa [text, spoken, firmness, Method.text, spokenAll_eq_map] using hcall
    | some owner =>
      have hmember := Spelled.member hspelled (.bare ['.']) howner (.bare _)
      have hcall := Spelled.call hmember (.bare ['.']) hname (.bare _) (.bare ['(']) hargs hlist
        (.bare [')'])
      rw [hterms] at hcall
      simpa [text, spoken, firmness, Method.text, spokenAll_eq_map] using hcall
  | ownerCall method arguments ihargs =>
    simp only [every, isLegible, Bool.and_eq_true, everyIn_iff] at h
    obtain ⟨⟨hname, howner⟩, harguments⟩ := h
    obtain ⟨args, hterms, hargs, hlist⟩ := spelled_arguments fun t ht =>
      (ihargs t ht (harguments t ht)).loosenTo (Nat.zero_le _) t.firmness_le
    obtain ⟨owner, name⟩ := method
    cases owner with
    | none => cases howner
    | some owner =>
      have hfree : isName owner = true ∧ isKeyword owner = false := by
        simpa [isFreeName] using howner
      have hparameter := (Spelled.parameter hfree.1 hfree.2 (.bare _)).loosenTo (l := 8) (by decide)
        (by decide)
      have hcall := Spelled.call hparameter (.bare ['.']) hname (.bare _) (.bare ['(']) hargs hlist
        (.bare [')'])
      rw [hterms] at hcall
      simpa [text, spoken, firmness, Method.text, spokenAll_eq_map] using hcall
  | object members ih =>
    simp only [every, isLegible, Bool.and_eq_true, everyMember_iff, Bool.not_eq_true',
      List.all_eq_true] at h
    obtain ⟨⟨hsome, hnames⟩, hvalues⟩ := h
    have hmembers : members ≠ [] := by
      rintro rfl
      cases hsome
    obtain ⟨texts, hpairs, hframed, hspelled, hlist⟩ := spelled_members hmembers hnames fun m hm =>
      (ih m hm (hvalues m hm)).loosenTo (Nat.zero_le _) m.2.firmness_le
    have htexts : texts ≠ [] := by
      rintro rfl
      exact hmembers (by simpa using hpairs.symm)
    have hobject := Spelled.object (.bare _) (.blank ['\x7b']) htexts hframed hspelled hlist
      (.blank ['\x7d'])
    rw [hpairs] at hobject
    simpa [text, spoken, firmness, spokenIn_eq_map] using hobject
  | _ => cases h

end Term

end EntityQuery
