import EntityQuery.Proofs.Spelling.Texts
import EntityQuery.Proofs.WellFormed

/-!
What is read off the text of a chain.

* `Lambda.reread`, `Operator.reread`, `ValueType.reread` -- what a reader makes of a text: terms as
  they are spoken, in lambdas with calls on types told apart by the parameter, and a type argument
  as the primitive type that its name is a keyword for, or else an entity;
* `Operator.Legible`, `Chain.Legible` -- every name is one that a reader takes, every node is
  legible, and each chain starts with its only source;
* `Reader.operator_of_text` -- **the text of an operator is read as the operator reread**;
* `Chain.read_text` -- **so is the text of a chain**.
-/
namespace EntityQuery

open Text

/-! ## 1. What a text says -/

/-- The type that is read off the name of a type. -/
def ValueType.reread (type : ValueType) : ValueType :=
  (ofKeyword? type.text).getD (.entity type.text)

namespace Lambda

/-- The lambda that is read off the text of a lambda. -/
def reread (l : Lambda) : Lambda := ⟨l.parameter, l.body.spoken.withOwners l.parameter⟩

/-- A lambda whose text can be read. -/
def isLegible (l : Lambda) : Bool := isName l.parameter && l.body.every Term.isLegible

end Lambda

namespace Operator

mutual
/-- The operator that is read off the text of an operator. -/
def reread : Operator → Operator
  | .source entity => .source entity
  | .filter l => .filter l.reread
  | .project l => .project l.reread
  | .order continued l ascending => .order continued l.reread ascending
  | .overRows kind l => .overRows kind l.reread
  | .aggregate kind l => .aggregate kind (l.map Lambda.reread)
  | .pick kind l orDefault => .pick kind (l.map Lambda.reread) orDefault
  | .elementAt t orDefault => .elementAt t.spoken orDefault
  | .withTerm kind t => .withTerm kind t.spoken
  | .defaultIfEmpty t => .defaultIfEmpty (t.map Term.spoken)
  | .plain kind => .plain kind
  | .combine kind other => .combine kind (rereadAll other)
  | .join grouped inner outerKey innerKey result =>
    .join grouped (rereadAll inner) outerKey.reread innerKey.reread result.reread
  | .typed kind type => .typed kind type.reread

/-- The same for operators in turn. -/
def rereadAll : List Operator → List Operator
  | [] => []
  | op :: rest => reread op :: rereadAll rest
end

theorem rereadAll_eq_map (ops : List Operator) : rereadAll ops = ops.map reread := by
  induction ops with
  | nil => rfl
  | cons op ops ih => rw [rereadAll, ih, List.map_cons]

theorem texts_eq_map (ops : List Operator) : texts ops = ops.map text := by
  induction ops with
  | nil => rfl
  | cons op ops ih => rw [texts, ih, List.map_cons]

/-- The type arguments of an operator. -/
def types : Operator → List ValueType
  | .typed _ type => [type]
  | _ => []

/-- An operator whose lambdas, terms and types have texts that can be read. -/
structure Legible (op : Operator) : Prop where
  lambdas : ∀ l ∈ op.lambdas, l.isLegible = true
  terms : ∀ t ∈ op.terms, t.every Term.isLegible = true
  types : ∀ type ∈ op.types, isName type.text = true

instance (op : Operator) : Decidable op.Legible :=
  decidable_of_iff (_ ∧ _ ∧ _) ⟨fun ⟨hl, ht, htype⟩ => ⟨hl, ht, htype⟩,
    fun h => ⟨h.lambdas, h.terms, h.types⟩⟩

theorem isName_name (op : Operator) : isName op.name = true := by
  cases op with
  | order continued _ ascending =>
    cases continued <;> cases ascending <;> simp only [name] <;> decide
  | overRows kind _ => cases kind <;> simp only [name, RowOperator.name] <;> decide
  | aggregate kind _ => cases kind <;> simp only [name, Aggregate.name] <;> decide
  | pick kind _ orDefault => cases kind <;> cases orDefault <;> simp only [name, Pick.name] <;> decide
  | elementAt _ orDefault => cases orDefault <;> simp only [name] <;> decide
  | withTerm kind _ => cases kind <;> simp only [name, TermOperator.name] <;> decide
  | plain kind => cases kind <;> simp only [name, PlainOperator.name] <;> decide
  | combine kind _ => cases kind <;> simp only [name, Combination.name] <;> decide
  | join grouped _ _ _ _ => cases grouped <;> simp only [name] <;> decide
  | typed kind _ => cases kind <;> simp only [name, TypeOperator.name] <;> decide
  | _ =>
    simp only [name]
    decide

theorem applied_eq (op : Operator) (arguments : String) :
    op.applied arguments = op.name ++ ("(" ++ arguments ++ ")") := by
  simp only [applied, String.append_assoc]

/-- The text of an operator starts with its name. -/
theorem exists_text_eq {op : Operator} (h : op.isSource = false) :
    ∃ more, op.text = op.name ++ more := by
  cases op with
  | source _ => cases h
  | combine kind other => exact ⟨_, by rw [text, String.append_assoc, String.append_assoc]; rfl⟩
  | join grouped inner outerKey innerKey result =>
    have hname : (if grouped then "GroupJoin(" else "Join(") =
        (if grouped then "GroupJoin" else "Join") ++ "(" := by cases grouped <;> rfl
    refine ⟨"(" ++ (".".intercalate (texts inner) ++ (", " ++ (outerKey.text ++ (", " ++
      (innerKey.text ++ (", " ++ (result.text ++ ")"))))))), ?_⟩
    simp only [text, name, hname, String.append_assoc]
  | typed kind type => exact ⟨_, by rw [text, String.append_assoc, String.append_assoc]; rfl⟩
  | _ => exact ⟨_, by rw [text]; exact applied_eq _ _⟩

/-- The text of a chain inside an operator is shorter than that of the operator. -/
theorem length_text_lt {op : Operator} {c : Chain} (h : c ∈ op.chains) :
    c.text.toList.length < op.text.toList.length := by
  cases op with
  | combine kind other =>
    obtain rfl := List.mem_singleton.mp h
    simp only [text, Chain.text, String.toList_append, List.length_append]
    have hopen : "(".toList.length = 1 := rfl
    omega
  | join grouped inner outerKey innerKey result =>
    obtain rfl := List.mem_singleton.mp h
    simp only [text, Chain.text, String.toList_append, List.length_append]
    have hclose : ")".toList.length = 1 := rfl
    omega
  | _ => exact absurd h List.not_mem_nil

end Operator

/-- Every chain in a chain starts with its only source, and its operators are legible. -/
structure Chain.Legible (chain : Chain) : Prop where
  source : ∀ c, chain.Holds c → ∃ entity ops, c = .source entity :: ops ∧ isName entity = true ∧
    ∀ op ∈ ops, op.isSource = false
  parts : ∀ c, chain.Holds c → ∀ op ∈ c, op.Legible

theorem Chain.Holds.trans {chain c d : Chain} (h : chain.Holds c) (hd : c.Holds d) :
    chain.Holds d := by
  induction hd with
  | self => exact h
  | nested _ hop hd ih => exact .nested ih hop hd

/-- What the chain itself has, and what all chains do that an operator of it holds, all have. -/
theorem Chain.forall_holds {P : Chain → Prop} {chain : Chain} (h : P chain)
    (hinside : ∀ op ∈ chain, ∀ d ∈ op.chains, ∀ c, d.Holds c → P c) : ∀ c, chain.Holds c → P c := by
  have hsplit : ∀ c, chain.Holds c →
      c = chain ∨ ∃ op ∈ chain, ∃ d ∈ op.chains, d.Holds c := by
    intro c hc
    induction hc with
    | self => exact .inl rfl
    | nested _ hop hd ih =>
      rcases ih with rfl | ⟨op, hop', d', hd', hholds⟩
      · exact .inr ⟨_, hop, _, hd, .self⟩
      · exact .inr ⟨op, hop', d', hd', .nested hholds hop hd⟩
  intro c hc
  rcases hsplit c hc with rfl | ⟨op, hop, d, hd, hholds⟩
  · exact h
  · exact hinside op hop d hd c hholds

theorem Chain.Legible.of_inside {chain : Chain}
    (hsource : ∃ entity ops, chain = .source entity :: ops ∧ isName entity = true ∧
      ∀ op ∈ ops, op.isSource = false) (hparts : ∀ op ∈ chain, op.Legible)
    (hinside : ∀ op ∈ chain, ∀ d ∈ op.chains, d.Legible) : chain.Legible where
  source := forall_holds hsource fun op hop d hd => (hinside op hop d hd).source
  parts := forall_holds hparts fun op hop d hd => (hinside op hop d hd).parts

theorem Chain.Legible.nested {chain : Chain} (h : chain.Legible) {op : Operator} (hop : op ∈ chain)
    {c : Chain} (hc : c ∈ op.chains) : c.Legible where
  source d hd := h.source d (.trans (.nested .self hop hc) hd)
  parts d hd := h.parts d (.trans (.nested .self hop hc) hd)

namespace Reader

/-! ## 2. Arguments -/

theorem stops_closing (rest : List Char) : Stops 0 (')' :: rest) :=
  .of_spaced (.bare [')']) (by decide) (by decide) (by decide) (by decide) rest

theorem stops_comma (rest : List Char) : Stops 0 (',' :: rest) :=
  .of_spaced (.bare [',']) (by decide) (by decide) (by decide) (by decide) rest

theorem term_of_text {t : Term} (h : t.every Term.isLegible = true) {rest : List Char}
    (hrest : Stops 0 rest) : term (t.text.toList ++ rest) = .ok t.spoken rest :=
  term_of_spelled ((t.spelled_text h).loosenTo (Nat.zero_le _) t.firmness_le) hrest

theorem lambda_of_body {l : Lambda} (h : l.isLegible = true) {s rest : List Char}
    (hs : Spaced l.parameter.toList s) (hrest : Stops 0 rest) :
    lambda (s ++ (" => ".toList ++ (l.body.text.toList ++ rest))) = .ok l.reread rest := by
  simp only [Lambda.isLegible, Bool.and_eq_true] at h
  have hbody := (l.body.spelled_text h.2).loosenTo (Nat.zero_le _) l.body.firmness_le
  have hread := lambda_of_spelled h.1 hs (.blank ['=', '>']) hbody.afterBlank hrest
  exact hread

theorem toList_lambda (l : Lambda) (rest : List Char) : l.text.toList ++ rest =
    l.parameter.toList ++ (" => ".toList ++ (l.body.text.toList ++ rest)) := by
  simp [Lambda.text]

/-- **The text of a lambda is read as the lambda reread.** -/
theorem lambda_of_text {l : Lambda} (h : l.isLegible = true) {rest : List Char}
    (hrest : Stops 0 rest) : lambda (l.text.toList ++ rest) = .ok l.reread rest := by
  rw [toList_lambda]
  exact lambda_of_body h (.bare _) hrest

/-- So it is after a blank. -/
theorem lambda_afterBlank {l : Lambda} (h : l.isLegible = true) {rest : List Char}
    (hrest : Stops 0 rest) : lambda (' ' :: (l.text.toList ++ rest)) = .ok l.reread rest := by
  rw [toList_lambda]
  exact lambda_of_body (s := ' ' :: l.parameter.toList) h (.blank _) hrest

theorem next?_closing (rest : List Char) : next? (')' :: rest) = some ')' :=
  (Spaced.bare [')']).next? rfl rest

theorem fails_lambda_closing (rest : List Char) : Fails lambda (')' :: rest) := by
  refine (fails_name fun c hc => ?_).bind _
  rw [next?_closing] at hc
  cases hc
  decide

theorem fails_term_closing (rest : List Char) : Fails term (')' :: rest) := by
  have hfails : Fails (readerAt (')' :: rest).length 0) (')' :: rest) := fails_readerAt _ fun c hc => by
    rw [next?_closing] at hc
    cases hc
    decide
  obtain ⟨fault, hfault⟩ := hfails
  exact ⟨fault, hfault⟩

/-! ## 3. Operators -/

variable {chain : Reader Chain}

theorem symbol_of_char {token : String} {c : Char} (htoken : token.toList = [c])
    (hgap : isGap c = false) (rest : List Char) : symbol token (c :: rest) = .ok () rest :=
  symbol_of_spaced htoken (.bare [c]) hgap rest

/-- An operator from its parts: the name, the type argument and the arguments. -/
theorem operator_of_parts {n : String} (hn : isName n = true) {type : Option ValueType}
    {op : Operator} {s₁ s₂ s₃ s₄ rest : List Char} (hapart : isApart s₁ = true)
    (htype : optional (between (symbol "<") typeName (cut (symbol ">"))) s₁ = .ok type s₂)
    (hopen : cut (symbol "(") s₂ = .ok () s₃)
    (harguments : ∀ start, operatorArguments chain start n type s₃ = .ok op s₄)
    (hclose : cut (symbol ")") s₄ = .ok () rest) :
    operator chain (n.toList ++ s₁) = .ok op rest := by
  rw [operator, bind_of_ok (r := here) rfl, bind_of_ok (name_of_spaced hn (.bare _) hapart),
    bind_of_ok htype, bind_of_ok hopen, bind_of_ok (harguments _), bind_of_ok hclose]
  rfl

/-- The name of an operator and its arguments in parentheses. -/
theorem operator_of_arguments {n : String} (hn : isName n = true)
    (huntyped : typeOperatorNamed? n = none) {r : Reader Operator}
    (hr : argumentsOf? chain n = some r) {op : Operator} {s rest : List Char}
    (h : r (s ++ ')' :: rest) = .ok op (')' :: rest)) :
    operator chain (n.toList ++ '(' :: (s ++ ')' :: rest)) = .ok op rest := by
  have hnone : Fails (between (symbol "<") typeName (cut (symbol ">")))
      ('(' :: (s ++ ')' :: rest)) := by
    have hnext : next? ('(' :: (s ++ ')' :: rest)) = some '(' := (Spaced.bare ['(']).next? rfl _
    refine (fails_symbol (c := '<') rfl ?_).bind _
    rw [hnext]
    decide
  have harguments : ∀ start, operatorArguments chain start n none (s ++ ')' :: rest) =
      .ok op (')' :: rest) := by
    intro start
    simp only [operatorArguments, huntyped, hr]
    rw [bind_of_ok h]
    rfl
  exact operator_of_parts hn rfl (optional_of_fails hnone) (cut_of_ok (symbol_of_char rfl rfl _))
    harguments (cut_of_ok (symbol_of_char rfl rfl _))

/-- Only an operator with a type argument has the name of one. -/
theorem typeOperatorNamed?_name {op : Operator} (h : op.types = []) :
    typeOperatorNamed? op.name = none := by
  cases op with
  | order continued _ ascending => cases continued <;> cases ascending <;> rfl
  | overRows kind _ => cases kind <;> rfl
  | aggregate kind _ => cases kind <;> rfl
  | pick kind _ orDefault => cases kind <;> cases orDefault <;> rfl
  | elementAt _ orDefault => cases orDefault <;> rfl
  | withTerm kind _ => cases kind <;> rfl
  | plain kind => cases kind <;> rfl
  | combine kind _ => cases kind <;> rfl
  | join grouped _ _ _ _ => cases grouped <;> rfl
  | typed _ _ => cases h
  | _ => rfl

theorem operator_of_applied {op op' : Operator} (huntyped : op.types = [])
    {r : Reader Operator} (hr : argumentsOf? chain op.name = some r) {arguments : String}
    {rest : List Char} (h : r (arguments.toList ++ ')' :: rest) = .ok op' (')' :: rest)) :
    operator chain ((op.applied arguments).toList ++ rest) = .ok op' rest := by
  have htext : (op.applied arguments).toList ++ rest =
      op.name.toList ++ '(' :: (arguments.toList ++ ')' :: rest) := by simp [Operator.applied]
  rw [htext]
  exact operator_of_arguments op.isName_name (typeOperatorNamed?_name huntyped) hr h

theorem operator_of_lambda {op : Operator} (huntyped : op.types = [])
    {build : Lambda → Operator} (hr : argumentsOf? chain op.name = some (lambdaFor build))
    {l : Lambda} (hl : l.isLegible = true) (rest : List Char) :
    operator chain ((op.applied l.text).toList ++ rest) = .ok (build l.reread) rest :=
  operator_of_applied huntyped hr
    (map_of_ok (cut_of_ok (lambda_of_text hl (stops_closing rest))) build)

theorem operator_of_lambdaMaybe {op : Operator} (huntyped : op.types = [])
    {build : Option Lambda → Operator}
    (hr : argumentsOf? chain op.name = some (lambdaMaybe build)) {l : Option Lambda}
    (hl : ∀ m ∈ l, m.isLegible = true) (rest : List Char) :
    operator chain ((op.applied ((l.map Lambda.text).getD "")).toList ++ rest) =
      .ok (build (l.map Lambda.reread)) rest := by
  refine operator_of_applied huntyped hr (map_of_ok ?_ build)
  cases l with
  | none => exact optional_of_fails (fails_lambda_closing rest)
  | some l => exact optional_of_ok (lambda_of_text (hl l rfl) (stops_closing rest))

theorem operator_of_term {op : Operator} (huntyped : op.types = [])
    {build : Term → Operator} (hr : argumentsOf? chain op.name = some (termFor build)) {t : Term}
    (ht : t.every Term.isLegible = true) (rest : List Char) :
    operator chain ((op.applied t.text).toList ++ rest) = .ok (build t.spoken) rest :=
  operator_of_applied huntyped hr (map_of_ok (cut_of_ok (term_of_text ht (stops_closing rest))) build)

theorem joinArguments_of_text {inner inner' : Chain} {outerKey innerKey result : Lambda}
    (ho : outerKey.isLegible = true) (hi : innerKey.isLegible = true)
    (hr : result.isLegible = true)
    (hinner : ∀ rest, Stops 0 rest → chain (inner.text.toList ++ rest) = .ok inner' rest)
    (grouped : Bool) {rest : List Char} (hrest : Stops 0 rest) :
    joinArguments chain grouped (inner.text.toList ++ (", ".toList ++ (outerKey.text.toList ++
      (", ".toList ++ (innerKey.text.toList ++ (", ".toList ++ (result.text.toList ++ rest))))))) =
      .ok (.join grouped inner' outerKey.reread innerKey.reread result.reread) rest := by
  have hcomma : ∀ s : List Char, symbol "," (", ".toList ++ s) = .ok () (' ' :: s) :=
    fun s => symbol_of_spaced rfl (.bare [',']) rfl (' ' :: s)
  have hstops : ∀ s : List Char, Stops 0 (", ".toList ++ s) := fun s => stops_comma (' ' :: s)
  rw [joinArguments]
  refine cut_of_ok ?_
  rw [bind_of_ok (hinner _ (hstops _)), bind_of_ok (hcomma _),
    bind_of_ok (lambda_afterBlank ho (hstops _)), bind_of_ok (hcomma _),
    bind_of_ok (lambda_afterBlank hi (hstops _)), bind_of_ok (hcomma _),
    bind_of_ok (lambda_afterBlank hr hrest)]
  rfl

/-- An operator with a type argument. -/
theorem operator_of_type {type : ValueType} (h : isName type.text = true) (kind : TypeOperator)
    (rest : List Char) :
    operator chain ((kind.name ++ "<" ++ type.text ++ ">()").toList ++ rest) =
      .ok (.typed kind type.reread) rest := by
  have htext : (kind.name ++ "<" ++ type.text ++ ">()").toList ++ rest =
      kind.name.toList ++ '<' :: (type.text.toList ++ '>' :: ('(' :: (')' :: rest))) := by simp
  have hname : isName kind.name = true := by cases kind <;> decide
  have hnamed : typeOperatorNamed? kind.name = some kind := by cases kind <;> rfl
  have htype : typeName (type.text.toList ++ '>' :: ('(' :: (')' :: rest))) =
      .ok type.reread ('>' :: ('(' :: (')' :: rest))) :=
    bind_of_ok (name_of_spaced h (.bare _) rfl) _
  have hbrackets : between (symbol "<") typeName (cut (symbol ">"))
      ('<' :: (type.text.toList ++ '>' :: ('(' :: (')' :: rest)))) =
        .ok type.reread ('(' :: (')' :: rest)) :=
    between_of_ok (symbol_of_char rfl rfl _) htype (cut_of_ok (symbol_of_char rfl rfl _))
  have harguments : ∀ start, operatorArguments chain start kind.name (some type.reread)
      (')' :: rest) = .ok (.typed kind type.reread) (')' :: rest) := by
    intro start
    simp only [operatorArguments, hnamed]
    rfl
  rw [htext]
  exact operator_of_parts hname rfl (optional_of_ok hbrackets) (cut_of_ok (symbol_of_char rfl rfl _))
    harguments (cut_of_ok (symbol_of_char rfl rfl _))

/-- **The text of an operator is read as the operator reread**, if those of the chains in it are. -/
theorem operator_of_text {op : Operator} (hsource : op.isSource = false) (h : op.Legible)
    (hchains : ∀ c ∈ op.chains, ∀ rest, Stops 0 rest →
      chain (c.text.toList ++ rest) = .ok (Operator.rereadAll c) rest) (rest : List Char) :
    operator chain (op.text.toList ++ rest) = .ok op.reread rest := by
  cases op with
  | source _ => cases hsource
  | filter l => exact operator_of_lambda rfl rfl (h.lambdas l List.mem_cons_self) rest
  | project l => exact operator_of_lambda rfl rfl (h.lambdas l List.mem_cons_self) rest
  | order continued l ascending =>
    have hr : argumentsOf? chain (Operator.name (.order continued l ascending)) =
        some (lambdaFor (.order continued · ascending)) := by
      cases continued <;> cases ascending <;> rfl
    exact operator_of_lambda rfl hr (h.lambdas l List.mem_cons_self) rest
  | overRows kind l =>
    have hr : argumentsOf? chain (Operator.name (.overRows kind l)) =
        some (lambdaFor (.overRows kind)) := by cases kind <;> rfl
    exact operator_of_lambda rfl hr (h.lambdas l List.mem_cons_self) rest
  | aggregate kind l =>
    have hr : argumentsOf? chain (Operator.name (.aggregate kind l)) =
        some (lambdaMaybe (.aggregate kind)) := by cases kind <;> rfl
    have hl : ∀ m ∈ l, m.isLegible = true := fun m hm => h.lambdas m (Option.mem_toList.mpr hm)
    exact operator_of_lambdaMaybe rfl hr hl rest
  | pick kind l orDefault =>
    have hr : argumentsOf? chain (Operator.name (.pick kind l orDefault)) =
        some (lambdaMaybe (.pick kind · orDefault)) := by cases kind <;> cases orDefault <;> rfl
    have hl : ∀ m ∈ l, m.isLegible = true := fun m hm => h.lambdas m (Option.mem_toList.mpr hm)
    exact operator_of_lambdaMaybe rfl hr hl rest
  | elementAt t orDefault =>
    have hr : argumentsOf? chain (Operator.name (.elementAt t orDefault)) =
        some (termFor (.elementAt · orDefault)) := by cases orDefault <;> rfl
    exact operator_of_term rfl hr (h.terms t List.mem_cons_self) rest
  | withTerm kind t =>
    have hr : argumentsOf? chain (Operator.name (.withTerm kind t)) =
        some (termFor (.withTerm kind)) := by cases kind <;> rfl
    exact operator_of_term rfl hr (h.terms t List.mem_cons_self) rest
  | defaultIfEmpty t =>
    have hvalue : optional term (((t.map Term.text).getD "").toList ++ ')' :: rest) =
        .ok (t.map Term.spoken) (')' :: rest) := by
      cases t with
      | none => exact optional_of_fails (fails_term_closing rest)
      | some t => exact optional_of_ok (term_of_text (h.terms t List.mem_cons_self) (stops_closing rest))
    have hr : argumentsOf? chain (Operator.name (.defaultIfEmpty t)) =
        some (Operator.defaultIfEmpty <$> optional term) := rfl
    exact operator_of_applied rfl hr (map_of_ok hvalue _)
  | plain kind =>
    have hr : argumentsOf? chain (Operator.name (.plain kind)) =
        some (Reader.pure (.plain kind)) := by cases kind <;> rfl
    exact operator_of_applied rfl hr rfl
  | combine kind other =>
    have hr : argumentsOf? chain (Operator.name (.combine kind other)) =
        some (Operator.combine kind <$> cut chain) := by cases kind <;> rfl
    have hother := hchains other List.mem_cons_self _ (stops_closing rest)
    exact operator_of_applied rfl hr (map_of_ok (cut_of_ok hother) _)
  | join grouped inner outerKey innerKey result =>
    have hr : argumentsOf? chain (Operator.name (.join grouped inner outerKey innerKey result)) =
        some (joinArguments chain grouped) := by cases grouped <;> rfl
    have ho := h.lambdas outerKey (by simp [Operator.lambdas])
    have hi := h.lambdas innerKey (by simp [Operator.lambdas])
    have hresult := h.lambdas result (by simp [Operator.lambdas])
    have hread := joinArguments_of_text ho hi hresult (hchains inner List.mem_cons_self) grouped
      (stops_closing rest)
    have htext : (Operator.text (.join grouped inner outerKey innerKey result)).toList ++ rest =
        (Operator.name (.join grouped inner outerKey innerKey result)).toList ++
          '(' :: (((Chain.text inner).toList ++ (", ".toList ++ (outerKey.text.toList ++ (", ".toList ++
            (innerKey.text.toList ++ (", ".toList ++ result.text.toList)))))) ++ ')' :: rest) := by
      cases grouped <;> simp [Operator.text, Operator.name, Chain.text]
    rw [htext]
    refine operator_of_arguments (Operator.isName_name _) (typeOperatorNamed?_name rfl) hr ?_
    rw [Operator.reread]
    simpa only [List.append_assoc] using hread
  | typed kind type => exact operator_of_type (h.types type List.mem_cons_self) kind rest

/-! ## 4. Chains -/

/-- The texts of the operators after the source, each with its point. -/
def pointed (ops : List Operator) : List Char := ops.flatMap fun op => '.' :: op.text.toList

theorem toList_chain (entity : String) (ops : List Operator) :
    (Chain.text (.source entity :: ops)).toList = entity.toList ++ pointed ops := by
  have hsource : (Operator.source entity).text = entity := rfl
  rw [Chain.text, String.toList_intercalate, Operator.texts_eq_map, List.map_cons, List.map_cons,
    Term.intercalate_cons, hsource]
  simp [pointed, List.flatMap_map]

theorem length_text_lt_pointed {ops : List Operator} {op : Operator} (h : op ∈ ops) :
    op.text.toList.length < (pointed ops).length := by
  induction ops with
  | nil => cases h
  | cons op' ops ih =>
    simp only [pointed, List.flatMap_cons, List.length_append, List.length_cons]
    rcases List.mem_cons.mp h with rfl | h
    · omega
    · have := ih h
      simp only [pointed] at this
      omega

/-- A point with the text of an operator behind it ends a name. -/
theorem isApart_pointed {ops : List Operator} (hops : ∀ op ∈ ops, op.isSource = false)
    {rest : List Char} (hrest : isApart rest = true) : isApart (pointed ops ++ rest) = true := by
  cases ops with
  | nil => exact hrest
  | cons op ops =>
    obtain ⟨more, htext⟩ := Operator.exists_text_eq (hops op List.mem_cons_self)
    have hstart : pointed (op :: ops) ++ rest =
        ['.'] ++ (op.name.toList ++ (more.toList ++ (pointed ops ++ rest))) := by
      simp [pointed, htext]
    rw [hstart]
    exact (Stops.of_point (.bare ['.']) op.isName_name (.bare _) _).apart

/-- **Operators after their points are read one after the other.** -/
theorem arrives_of_pointed {ops : List Operator} (hops : ∀ op ∈ ops, ∀ rest,
      operator chain (op.text.toList ++ rest) = .ok op.reread rest)
    (rest : List Char) (before : List Operator) :
    Arrives (fun ops => do
      symbol "."
      let op ← operator chain
      return ops ++ [op]) before (pointed ops ++ rest) (before ++ ops.map Operator.reread) rest := by
  induction ops generalizing before with
  | nil =>
    rw [List.map_nil, List.append_nil]
    exact .refl _ _ _
  | cons op ops ih =>
    have hop := hops op List.mem_cons_self (pointed ops ++ rest)
    have hmore := ih (fun op' hop' => hops op' (List.mem_cons_of_mem op hop')) (before ++ [op.reread])
    have hstep : (do
        symbol "."
        let op ← operator chain
        return before ++ [op]) ('.' :: (op.text.toList ++ (pointed ops ++ rest))) =
          .ok (before ++ [op.reread]) (pointed ops ++ rest) := by
      rw [bind_of_ok (symbol_of_char rfl rfl _), bind_of_ok hop]
      rfl
    have hlength : (pointed ops ++ rest).length <
        ('.' :: (op.text.toList ++ (pointed ops ++ rest))).length := by
      simp only [List.length_cons, List.length_append]
      omega
    have hstart : pointed (op :: ops) ++ rest =
        '.' :: (op.text.toList ++ (pointed ops ++ rest)) := by simp [pointed]
    have hend : before ++ (op :: ops).map Operator.reread =
        before ++ [op.reread] ++ ops.map Operator.reread := by simp
    rw [hstart, hend]
    exact (Arrives.single hstep hlength).trans hmore

/-- **The text of a chain is read as the chain reread**, at a depth that is not less than its
    length: a chain inside it has a shorter text. -/
theorem chainAt_of_text {n : Nat} {c : Chain} (h : c.Legible) (hn : c.text.toList.length ≤ n)
    {rest : List Char} (hrest : Stops 0 rest) :
    chainAt (n + 1) (c.text.toList ++ rest) = .ok (Operator.rereadAll c) rest := by
  induction n using Nat.strongRecOn generalizing c rest with
  | _ n ih =>
    obtain ⟨entity, ops, rfl, hentity, hsources⟩ := h.source c .self
    rw [toList_chain] at hn ⊢
    rw [List.length_append] at hn
    have hops : ∀ op ∈ ops, ∀ rest,
        operator (chainAt n) (op.text.toList ++ rest) = .ok op.reread rest := by
      intro op hop rest
      have hmem : op ∈ Operator.source entity :: ops := List.mem_cons_of_mem _ hop
      refine operator_of_text (hsources op hop) (h.parts _ .self op hmem) (fun d hd rest hrest => ?_) rest
      have hinside := Operator.length_text_lt hd
      have hlength := length_text_lt_pointed hop
      obtain ⟨m, rfl⟩ : ∃ m, n = m + 1 := ⟨n - 1, by omega⟩
      exact ih m (Nat.lt_succ_self m) (h.nested hmem hd) (by omega) hrest
    have hname : name (entity.toList ++ (pointed ops ++ rest)) = .ok entity (pointed ops ++ rest) :=
      name_of_spaced hentity (.bare _) (isApart_pointed hsources hrest.apart)
    have hend : Fails (symbol ".") rest := fails_symbol rfl (hrest.next?_ne (by decide))
    have hall : Operator.rereadAll (.source entity :: ops) =
        [.source entity] ++ ops.map Operator.reread := by
      rw [Operator.rereadAll_eq_map]
      rfl
    rw [List.append_assoc, hall, chainAt, bind_of_ok hname]
    exact (arrives_of_pointed hops rest [.source entity]).iterate (hend.bind _)

end Reader

/-- **The text of a legible chain is read as the chain reread.** -/
theorem Chain.read_text {chain : Chain} (h : chain.Legible) :
    Chain.read chain.text = .ok (Operator.rereadAll chain) := by
  have hgap : ∀ c ∈ ([] : List Char), isGap c = true := fun c hc => absurd hc List.not_mem_nil
  have hread := Reader.chainAt_of_text h (Nat.le_refl _) (.of_gap hgap 0)
  rw [List.append_nil] at hread
  exact Reader.readAll_of_gap (r := Reader.chain) hread hgap

end EntityQuery
