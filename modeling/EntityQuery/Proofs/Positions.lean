import EntityQuery.Proofs.Progress
import EntityQuery.Proofs.Spelling.Levels

/-!
Progress of the readers, and the places of their faults.

Every reader of the grammar reads something, or stops at a place in its text. So its loops come to
an end by themselves, and a fault of a whole text is at a byte of the text where a character starts.

* `Reader.Advances` -- what is left is a proper part at the end of the text, and so is the place of
  a fault a part of it; `Reader.OfGrammar` -- the readers of which this is said;
* `Reader.Loop` -- a step repeated with no bound; `Reader.loop_iff` -- **a step that advances is
  repeated as often as it succeeds**, since the bound of `iterate` is not felt; `Reader.Repeated` --
  the steps that the grammar repeats;
* `ReadFault.Located` -- the position is in the text and between two characters;
* `Reader.reading_advances_and_locates_faults` -- **the readers advance, their bounds are not felt,
  and their faults are located**.
-/
namespace EntityQuery

open Text

/-! ## 1. Progress -/

/-- What is left is a proper part at the end of the text; a fault is at a place in it. -/
def Outcome.Advances {α : Type} (s : List Char) : Outcome α → Prop
  | .ok _ rest => rest <:+ s ∧ rest ≠ s
  | .error f => f.rest <:+ s
  | .failure f => f.rest <:+ s

namespace Reader

/-- The reader advances on every text. -/
def Advances {α : Type} (r : Reader α) : Prop := ∀ s, (r s).Advances s

theorem advances_of_alike {α : Type} {r : Reader α} (h : ∀ origin n, Alike origin n 1 r r) :
    Advances r := by
  intro s
  have hwithin := (h s (s.length + 1)).within List.suffix_rfl (Nat.lt_succ_self _)
  generalize r s = o at hwithin ⊢
  cases o with
  | ok a rest =>
    obtain ⟨hrest, hlength⟩ := hwithin
    refine ⟨hrest, fun heq => ?_⟩
    rw [heq] at hlength
    omega
  | error f => exact hwithin.place
  | failure f => exact hwithin.place

/-- The reader of a level of binary operators; beyond the levels, of what they stand between. -/
def level (l : Nat) : Reader Term := (levels.drop l).foldr binaryLevel Grammar.whole.unary

/-- A level has the operands of the next one, and its own operators between them. -/
theorem level_eq {l : Nat} (hl : l < 7) : level l = (do
    let first ← level (l + 1)
    iterate (binaryStep (signs l) (level (l + 1))) first) := by
  have hcases : l = 0 ∨ l = 1 ∨ l = 2 ∨ l = 3 ∨ l = 4 ∨ l = 5 ∨ l = 6 := by omega
  rcases hcases with rfl | rfl | rfl | rfl | rfl | rfl | rfl <;> rfl

/-- The readers of chains, operators and lambdas, of terms and of all that terms are made of. -/
inductive OfGrammar : {α : Type} → Reader α → Prop where
  | chain : OfGrammar chain
  | operator : OfGrammar (operator chain)
  | lambda : OfGrammar lambda
  | term : OfGrammar term
  | level (l : Nat) : OfGrammar (level l)
  | unary : OfGrammar Grammar.whole.unary
  | signed {token : String} (htoken : token ≠ "") (build : Term → Term) :
      OfGrammar (signed token Grammar.whole.unary build)
  | cast : OfGrammar (castTo Grammar.whole.unary)
  | access : OfGrammar Grammar.whole.access
  | atom : OfGrammar (atom Grammar.whole.term Grammar.whole.access)
  | word : OfGrammar (word Grammar.whole.term Grammar.whole.access)
  | object : OfGrammar (object Grammar.whole.term Grammar.whole.access)
  | objectMember : OfGrammar (objectMember Grammar.whole.term Grammar.whole.access)
  | memberLabel : OfGrammar memberLabel
  | arguments : OfGrammar (arguments Grammar.whole.term)
  | number : OfGrammar number
  | quoted (quote : Char) : OfGrammar (quoted quote)
  | stringLiteral : OfGrammar stringLiteral
  | charLiteral : OfGrammar charLiteral
  | castType : OfGrammar castType
  | typeName : OfGrammar typeName
  | name : OfGrammar name
  | symbol {token : String} (htoken : token ≠ "") : OfGrammar (symbol token)

theorem OfGrammar.alike {α : Type} {r : Reader α} (h : OfGrammar r) (origin : List Char) (n : Nat) :
    Alike origin n 1 r r := by
  have hwhole : ∀ n, Grammar.whole.Alike origin n Grammar.whole := fun n =>
    (Grammar.alike_whole origin n).right
  -- a bound one greater than needed does for the readers that use up a depth
  have hmono : ∀ {α : Type} {r : Reader α}, Alike origin (n + 1) 1 r r → Alike origin n 1 r r :=
    fun h => h.mono (Nat.le_succ n)
  cases h with
  | chain => exact (alike_chain origin n).right
  | operator => exact alike_operator (alike_chain origin n).right
  | lambda => exact alike_lambda
  | term => exact alike_term
  | level l => exact alike_levels _ (hwhole n).unary
  | unary => exact (hwhole n).unary
  | signed htoken build => exact hmono (alike_signed _ htoken (hwhole n).unary build)
  | cast => exact hmono (alike_castTo (hwhole n).unary)
  | access => exact (hwhole n).access
  | atom => exact hmono (alike_atom (hwhole n).term (hwhole n).access)
  | word => exact hmono (alike_word (hwhole n).term (hwhole n).access)
  | object => exact alike_object (hwhole n).term (hwhole n).access
  | objectMember => exact alike_objectMember (hwhole n).term (hwhole n).access
  | memberLabel => exact alike_memberLabel
  | arguments => exact alike_arguments (hwhole n).term
  | number => exact alike_number
  | quoted quote => exact alike_quoted quote
  | stringLiteral => exact alike_stringLiteral
  | charLiteral => exact alike_charLiteral
  | castType => exact alike_castType
  | typeName => exact alike_typeName
  | name => exact alike_name
  | symbol htoken => exact alike_symbol _ htoken

theorem OfGrammar.advances {α : Type} {r : Reader α} (h : OfGrammar r) : Advances r :=
  advances_of_alike h.alike

/-! ## 2. Loops -/

section Loops

variable {α : Type} {step : α → Reader α}

/-- A step repeated until it has an error, however often that is. -/
inductive Loop (step : α → Reader α) : α → List Char → Outcome α → Prop where
  | stop {a : α} {s : List Char} {f : Fault} (h : step a s = .error f) : Loop step a s (.ok a s)
  | fail {a : α} {s : List Char} {f : Fault} (h : step a s = .failure f) :
      Loop step a s (.failure f)
  | more {a b : α} {s rest : List Char} {o : Outcome α} (h : step a s = .ok b rest)
      (hrest : Loop step b rest o) : Loop step a s o

/-- A loop has one outcome. -/
theorem Loop.unique {a : α} {s : List Char} {o o' : Outcome α} (h : Loop step a s o)
    (h' : Loop step a s o') : o = o' := by
  induction h with
  | stop h =>
    cases h' with
    | stop _ => rfl
    | fail h' => cases h.symm.trans h'
    | more h' _ => cases h.symm.trans h'
  | fail h =>
    cases h' with
    | stop h' => cases h.symm.trans h'
    | fail h' =>
      cases h.symm.trans h'
      rfl
    | more h' _ => cases h.symm.trans h'
  | more h _ ih =>
    cases h' with
    | stop h' => cases h.symm.trans h'
    | fail h' => cases h.symm.trans h'
    | more h' hrest =>
      cases h.symm.trans h'
      exact ih hrest

/-- As many rounds as the text has characters are enough: each of them leaves a shorter text, and on
    the empty text the step has an error. -/
theorem loop_iterateAtMost (hstep : ∀ a, Advances (step a)) (hend : ∀ a, Fails (step a) [])
    {rounds : Nat} {a : α} {s : List Char} (hs : s.length ≤ rounds) :
    Loop step a s (iterateAtMost step rounds a s) := by
  induction rounds generalizing a s with
  | zero =>
    have hempty : s = [] := List.eq_nil_of_length_eq_zero (Nat.le_zero.mp hs)
    subst hempty
    obtain ⟨f, hf⟩ := hend a
    exact .stop hf
  | succ rounds ih =>
    have hadvances := hstep a s
    simp only [iterateAtMost]
    cases ho : step a s with
    | ok b rest =>
      rw [ho] at hadvances
      obtain ⟨hrest, hne⟩ := hadvances
      have hshorter : rest.length < s.length :=
        Nat.lt_of_le_of_ne hrest.length_le fun heq => hne (hrest.eq_of_length heq)
      exact .more ho (ih (by omega))
    | error f => exact .stop ho
    | failure f => exact .fail ho

/-- **The bound on the rounds is not felt.** -/
theorem loop_iff (hstep : ∀ a, Advances (step a)) (hend : ∀ a, Fails (step a) []) {a : α}
    {s : List Char} {o : Outcome α} : Loop step a s o ↔ o = iterate step a s := by
  have hloop : Loop step a s (iterate step a s) := loop_iterateAtMost hstep hend (Nat.le_refl _)
  constructor
  · exact fun h => h.unique hloop
  · intro h
    rw [h]
    exact hloop

end Loops

/-- A separator and one more item. -/
def itemStep {α : Type} (separator : Reader Unit) (item : Reader α) (items : List α) :
    Reader (List α) := do
  separator
  let a ← item
  return items ++ [a]

/-- The steps that the grammar repeats: the operators of a level with their right operands,
    accesses, the operators of a chain, arguments and the members of an object. -/
inductive Repeated : {α : Type} → (α → Reader α) → Prop where
  | binary (l : Nat) : Repeated (binaryStep (signs l) (level (l + 1)))
  | access : Repeated (accessStep Grammar.whole.term)
  | operator : Repeated (operatorStep chain)
  | argument : Repeated (itemStep (symbol ",") Grammar.whole.term)
  | member :
      Repeated (itemStep (symbol ",") (objectMember Grammar.whole.term Grammar.whole.access))

theorem Repeated.advances {α : Type} {step : α → Reader α} (h : Repeated step) (a : α) :
    Advances (step a) := by
  refine advances_of_alike fun origin n => ?_
  have hwhole := (Grammar.alike_whole origin n).right
  have hitem : ∀ {α : Type} {item : Reader α}, Alike origin n 1 item item → ∀ items,
      Alike origin n 1 (itemStep (symbol ",") item items) (itemStep (symbol ",") item items) :=
    fun h items => (alike_symbol "," (by decide)).bind fun _ => h.bind fun a => .pure (items ++ [a])
  cases h with
  | binary l =>
    exact (alike_sign _).bind fun op => (alike_levels _ hwhole.unary).cut.bind fun right =>
      .pure (Term.binary op a right)
  | access => exact alike_accessStep hwhole.term a
  | operator => exact alike_operatorStep (alike_chain origin n).right a
  | argument => exact hitem hwhole.term a
  | member => exact hitem (alike_objectMember hwhole.term hwhole.access) a

/-- At the end of a text nothing is repeated. -/
theorem Repeated.fails_nil {α : Type} {step : α → Reader α} (h : Repeated step) (a : α) :
    Fails (step a) [] := by
  have hcomma : Fails (symbol ",") [] := ⟨_, rfl⟩
  have hpoint : Fails (symbol ".") [] := ⟨_, rfl⟩
  cases h with
  | binary l => exact (fails_sign fun _ _ h => by cases h).bind _
  | access => exact hpoint.bind _
  | operator => exact hpoint.bind _
  | argument => exact hcomma.bind _
  | member => exact hcomma.bind _

/-! ## 3. Positions -/

end Reader

theorem utf8Size_eq (s : List Char) : utf8Size s = (String.ofList s).utf8ByteSize := by
  induction s with
  | nil => rfl
  | cons c s ih =>
    have hcons : String.ofList (c :: s) = String.ofList [c] ++ String.ofList s := by
      rw [← String.ofList_append, List.singleton_append]
    rw [utf8Size, ih, hcons, String.utf8ByteSize_append]
    simp

theorem utf8Size_append (s t : List Char) : utf8Size (s ++ t) = utf8Size s + utf8Size t := by
  rw [utf8Size_eq, utf8Size_eq, utf8Size_eq, String.ofList_append, String.utf8ByteSize_append]

theorem utf8Size_le_of_suffix {s t : List Char} (h : s <:+ t) : utf8Size s ≤ utf8Size t := by
  obtain ⟨before, rfl⟩ := h
  rw [utf8Size_append]
  exact Nat.le_add_left _ _

/-- The position of the fault is in the text, where a character starts or the text ends. What stands
    behind the whole is quoted from there on, and no text is nested too deeply. -/
structure ReadFault.Located (text : String) (f : ReadFault) : Prop where
  inside : f.position ≤ text.utf8ByteSize
  boundary : String.Pos.Raw.IsValid text ⟨f.position⟩
  trailing : ∀ after, f.cause = .trailing after →
    ∃ before, text = before ++ after ∧ f.position = before.utf8ByteSize
  notTooDeep : f.cause ≠ .tooDeep

/-- The bytes before a part at the end of a text are a position where that part starts. -/
theorem exists_before_of_suffix {text : String} {rest : List Char} (h : rest <:+ text.toList) :
    ∃ before, text = before ++ String.ofList rest ∧
      utf8Size text.toList - utf8Size rest = before.utf8ByteSize := by
  obtain ⟨before, hbefore⟩ := h
  refine ⟨String.ofList before, ?_, ?_⟩
  · rw [← String.ofList_append, hbefore, String.ofList_toList]
  · rw [← hbefore, utf8Size_append, utf8Size_eq before]
    omega

theorem ReadFault.Located.of_suffix {text : String} {rest : List Char} (h : rest <:+ text.toList)
    {cause : Cause} (hcause : cause.isLocal = true ∨ cause = .trailing (String.ofList rest)) :
    ReadFault.Located text ⟨utf8Size text.toList - utf8Size rest, cause⟩ := by
  obtain ⟨before, htext, hposition⟩ := exists_before_of_suffix h
  have hboundary : String.Pos.Raw.IsValid text ⟨utf8Size text.toList - utf8Size rest⟩ := by
    refine String.Pos.Raw.isValid_iff_exists_append.mpr ⟨before, _, htext, ?_⟩
    rw [hposition]
    rfl
  refine ⟨hboundary.le_utf8ByteSize, hboundary, fun after hafter => ⟨before, ?_, hposition⟩, ?_⟩
  · have hquoted : cause = .trailing after := hafter
    rcases hcause with hcause | hcause
    · rw [hquoted] at hcause
      cases hcause
    · cases hcause.symm.trans hquoted
      exact htext
  · rintro rfl
    rcases hcause with hcause | hcause
    · cases hcause
    · cases hcause

namespace Reader

/-- **The faults of a whole text are located in it.** -/
theorem located_of_readAll {α : Type} {r : Reader α} (hr : OfGrammar r) {text : String}
    {f : ReadFault} (h : r.readAll text = .error f) : f.Located text := by
  have hwithin := (hr.alike text.toList (text.toList.length + 1)).within List.suffix_rfl
    (Nat.lt_succ_self _)
  unfold readAll at h
  simp only at h
  generalize r text.toList = o at h hwithin
  cases o with
  | ok a rest =>
    simp only at h
    split at h
    · cases h
    · cases h
      exact .of_suffix ((skipWhite_suffix rest).trans hwithin.1) (.inr rfl)
  | error fault =>
    cases h
    exact .of_suffix hwithin.place (.inl hwithin.cause)
  | failure fault =>
    cases h
    exact .of_suffix hwithin.place (.inl hwithin.cause)

/-- **Readers advance and locate their faults.** Every reader of the grammar leaves a proper part at
    the end of its text, or has a fault at a place in it, and the bytes from there on are no more
    than those of the text. A step that the grammar repeats is repeated until it has an error or a
    failure, and no bound ends it before. Nor is the bound on the depth of nesting felt: the readers
    of terms, level by level, and of chains are made of themselves. And a fault in the text of a
    chain or of a lambda is located in that text. -/
theorem reading_advances_and_locates_faults :
    (∀ {α : Type} {r : Reader α}, OfGrammar r → ∀ s, (r s).Advances s ∧
      ∀ f, r s = .error f ∨ r s = .failure f → utf8Size f.rest ≤ utf8Size s) ∧
    (∀ {α : Type} {step : α → Reader α}, Repeated step →
      ∀ a s o, Loop step a s o ↔ o = iterate step a s) ∧
    (term = level 0 ∧
      (∀ l < 7, level l = do
        let first ← level (l + 1)
        iterate (binaryStep (signs l) (level (l + 1))) first) ∧
      level 7 = Grammar.whole.unary ∧ Grammar.whole = Grammar.whole.next ∧ chain = chainOf chain) ∧
    (∀ text f, Chain.read text = .error f → f.Located text) ∧
    (∀ text f, Lambda.read text = .error f → f.Located text) := by
  refine ⟨fun hr s => ⟨hr.advances s, fun f hf => ?_⟩,
    fun hstep a s o => loop_iff hstep.advances hstep.fails_nil,
    ⟨term_eq, fun l hl => level_eq hl, rfl, Grammar.next_whole.symm, chain_eq⟩,
    fun _ _ => located_of_readAll .chain, fun _ _ => located_of_readAll .lambda⟩
  have hadvances := hr.advances s
  rcases hf with hf | hf
  · rw [hf] at hadvances
    exact utf8Size_le_of_suffix hadvances
  · rw [hf] at hadvances
    exact utf8Size_le_of_suffix hadvances

/-- Why a text cannot be read. -/
def faultOf? {α : Type} : Except ReadFault α → Option ReadFault
  | .ok _ => none
  | .error f => some f

theorem eq_error_of_faultOf? {α : Type} {x : Except ReadFault α} {f : ReadFault}
    (h : faultOf? x = some f) : x = .error f := by
  cases x with
  | ok _ => cases h
  | error f' =>
    cases h
    rfl

/-- A letter of two bytes behind a chain, and another in a text that is not closed. -/
theorem reading_advances_and_locates_faults_of_letters :
    OfGrammar chain ∧ (chain "Ä é".toList).Advances "Ä é".toList ∧
    Repeated (operatorStep chain) ∧
    Loop (operatorStep chain) [.source "Ä"] " é".toList (.ok [.source "Ä"] " é".toList) ∧
    Chain.read "Ä é" = .error ⟨3, .trailing "é"⟩ ∧
    (⟨3, .trailing "é"⟩ : ReadFault).Located "Ä é" ∧
    Lambda.read "ä => \"é" = .error ⟨6, .unterminated⟩ ∧
    (⟨6, .unterminated⟩ : ReadFault).Located "ä => \"é" := by
  obtain ⟨hreaders, hloops, -, hchains, hlambdas⟩ := reading_advances_and_locates_faults
  have hchain : Chain.read "Ä é" = .error ⟨3, .trailing "é"⟩ :=
    eq_error_of_faultOf? (by decide +kernel)
  have hlambda : Lambda.read "ä => \"é" = .error ⟨6, .unterminated⟩ :=
    eq_error_of_faultOf? (by decide +kernel)
  have hiterate : iterate (operatorStep chain) [.source "Ä"] " é".toList =
      .ok [.source "Ä"] " é".toList := by
    rfl
  exact ⟨.chain, (hreaders .chain _).1, .operator, (hloops .operator _ _ _).mpr hiterate.symm,
    hchain, hchains _ _ hchain, hlambda, hlambdas _ _ hlambda⟩

end Reader

end EntityQuery
