import EntityQuery.Proofs.Placeholders

/-!
Skeletons: what the text of an expression shows of it.

Types, mappings and the values of constants do not show, and an equality with null shows as a test.

* `Skeleton` -- an expression with a placeholder for every constant but null, attributes by their
  names, and tests for null;
* `Expr.skeleton` -- the skeleton of an expression;
* `Skeleton.spelling` -- the characters of a skeleton;
* `Expr.toList_text_render` -- **the text of a rendered expression is the spelling of its
  skeleton**;
* `Skeleton.Known` -- the functions of a skeleton are the two on texts.
-/
namespace EntityQuery

/-! ## 1. Skeletons -/

/-- What the text of an expression shows of it. -/
inductive Skeleton where
  | null
  | placeholder
  | name (name : String)
  | unary (op : Expr.UnaryOp) (operand : Skeleton)
  | binary (op : Expr.BinaryOp) (left right : Skeleton)
  | nullTest (negated : Bool) (operand : Skeleton)
  | call (function : String) (arguments : List Skeleton)

namespace Skeleton

/-- **Induction over skeletons**: for a call the statement may be assumed of every argument. -/
@[elab_as_elim, induction_eliminator]
theorem induction {motive : Skeleton → Prop} (null : motive .null)
    (placeholder : motive .placeholder) (name : ∀ name, motive (.name name))
    (unary : ∀ op operand, motive operand → motive (.unary op operand))
    (binary : ∀ op left right, motive left → motive right → motive (.binary op left right))
    (nullTest : ∀ negated operand, motive operand → motive (.nullTest negated operand))
    (call : ∀ function arguments, (∀ s ∈ arguments, motive s) → motive (.call function arguments))
    (s : Skeleton) : motive s := by
  refine @Skeleton.rec motive (fun ss => ∀ s ∈ ss, motive s) null placeholder name unary binary
    nullTest call ?_ ?_ s
  · exact fun _ h => absurd h List.not_mem_nil
  · intro s ss hs hss t ht
    rcases List.mem_cons.mp ht with rfl | ht
    · exact hs
    · exact hss t ht

/-- An equality or inequality of which an operand is null is a test of the other operand, of the
    left one if both are null. -/
def ofBinary (op : Expr.BinaryOp) (leftNull rightNull : Bool) (left right : Skeleton) : Skeleton :=
  match op, leftNull, rightNull with
  | .equal, _, true => .nullTest false left
  | .equal, true, false => .nullTest false right
  | .notEqual, _, true => .nullTest true left
  | .notEqual, true, false => .nullTest true right
  | op, _, _ => .binary op left right

section OfBinary

variable {op : Expr.BinaryOp} {leftNull rightNull : Bool}

/-- The characters of a test for null after its operand. -/
def testSpelling (negated : Bool) : List Char :=
  if negated then " IS NOT NULL".toList else " IS NULL".toList

theorem ofBinary_of_right {test : String} (h : op.nullTest? = some test) (leftNull : Bool)
    (left right : Skeleton) :
    ∃ negated, ofBinary op leftNull true left right = .nullTest negated left ∧
      test.toList = testSpelling negated := by
  cases op <;> cases h
  · exact ⟨false, rfl, rfl⟩
  · exact ⟨true, rfl, rfl⟩

theorem ofBinary_of_left {test : String} (h : op.nullTest? = some test) (left right : Skeleton) :
    ∃ negated, ofBinary op true false left right = .nullTest negated right ∧
      test.toList = testSpelling negated := by
  cases op <;> cases h
  · exact ⟨false, rfl, rfl⟩
  · exact ⟨true, rfl, rfl⟩

theorem ofBinary_of_neither (hright : ∀ test, op.nullTest? = some test → rightNull = true → False)
    (hleft : ∀ test, op.nullTest? = some test → leftNull = true → rightNull = false → False)
    (left right : Skeleton) : ofBinary op leftNull rightNull left right = .binary op left right := by
  cases op with
  | equal =>
    cases rightNull with
    | true => exact (hright _ rfl rfl).elim
    | false =>
      cases leftNull with
      | true => exact (hleft _ rfl rfl rfl).elim
      | false => rfl
  | notEqual =>
    cases rightNull with
    | true => exact (hright _ rfl rfl).elim
    | false =>
      cases leftNull with
      | true => exact (hleft _ rfl rfl rfl).elim
      | false => rfl
  | _ => rfl

/-- A test for null leaves out an operand that is null. -/
theorem ofBinary_cases (op : Expr.BinaryOp) (leftNull rightNull : Bool) (left right : Skeleton) :
    (rightNull = true ∧ ∃ negated, ofBinary op leftNull rightNull left right = .nullTest negated left) ∨
    (leftNull = true ∧ ∃ negated, ofBinary op leftNull rightNull left right = .nullTest negated right) ∨
      ofBinary op leftNull rightNull left right = .binary op left right := by
  unfold ofBinary
  split
  · exact Or.inl ⟨rfl, _, rfl⟩
  · exact Or.inr (Or.inl ⟨rfl, _, rfl⟩)
  · exact Or.inl ⟨rfl, _, rfl⟩
  · exact Or.inr (Or.inl ⟨rfl, _, rfl⟩)
  · exact Or.inr (Or.inr rfl)

end OfBinary

end Skeleton

namespace Expr

mutual
/-- The skeleton of an expression. A whole row is never written; it counts as null here. -/
def skeleton : Expr → Skeleton
  | .constant none _ _ => .null
  | .constant (some _) _ _ => .placeholder
  | .unary op operand _ _ => .unary op (skeleton operand)
  | .binary op left right _ _ =>
    .ofBinary op left.isNull right.isNull (skeleton left) (skeleton right)
  | .call function arguments _ _ => .call function (skeletons arguments)
  | .attr ref => .name ref.property.storedAs
  | .row _ => .null

/-- The skeletons of expressions in turn. -/
def skeletons : List Expr → List Skeleton
  | [] => []
  | e :: rest => skeleton e :: skeletons rest
end

theorem skeletons_eq_map (es : List Expr) : skeletons es = es.map skeleton := by
  induction es with
  | nil => rfl
  | cons e es ih => rw [skeletons, ih, List.map_cons]

end Expr

/-! ## 2. Spelling -/

namespace Skeleton

/-- A list between an opening and a closing item where it stands inside an expression, and else as
    it is. -/
def enclosed {α : Type} (opening closing : α) (nested : Bool) (items : List α) : List α :=
  if nested then opening :: (items ++ [closing]) else items

mutual
/-- The characters of a skeleton, which stands inside an expression or by itself. -/
def spelling (nested : Bool) : Skeleton → List Char
  | .null => "NULL".toList
  | .placeholder => "?".toList
  | .name n => (quoteName n).toList
  | .unary op operand => op.lead.toList ++ spelling true operand
  | .binary op left right =>
    enclosed '(' ')' nested
      (spelling true left ++ ' ' :: (op.token.toList ++ ' ' :: spelling true right))
  | .nullTest negated operand =>
    enclosed '(' ')' nested (spelling true operand ++ testSpelling negated)
  | .call function arguments =>
    function.toList ++ '(' :: ([',', ' '].intercalate (spellings arguments) ++ [')'])

/-- The characters of skeletons that stand by themselves, in turn. -/
def spellings : List Skeleton → List (List Char)
  | [] => []
  | s :: rest => spelling false s :: spellings rest
end

end Skeleton

namespace Expr

theorem toList_text_wrap (nested : Bool) (s : Statement) :
    (wrap nested s).text.toList = Skeleton.enclosed '(' ')' nested s.text.toList := by
  cases nested with
  | false => rfl
  | true =>
    show (("(" ++ s.text) ++ ")").toList = _
    simp [Skeleton.enclosed, String.toList_append]

theorem toList_texts_renderAll :
    ∀ {es : List Expr},
      (∀ e ∈ es, ∀ s, e.render false = .ok s → s.text.toList = e.skeleton.spelling false) →
      ∀ {ss : List Statement}, renderAll es = .ok ss →
        ss.map (fun s => s.text.toList) = Skeleton.spellings (skeletons es)
  | [], _, _, h => by
    cases h
    rfl
  | e :: es, he, _, h => by
    rw [renderAll] at h
    obtain ⟨s, hs, h⟩ := exists_of_bind_eq_ok h
    obtain ⟨ss, hss, h⟩ := exists_of_bind_eq_ok h
    cases h
    have htail := toList_texts_renderAll (fun d hd => he d (List.mem_cons_of_mem e hd)) hss
    rw [List.map_cons, he e List.mem_cons_self s hs, htail]
    rfl

/-- **The text of a rendered expression is the spelling of its skeleton.** -/
theorem toList_text_render {e : Expr} {nested : Bool} {s : Statement}
    (h : e.render nested = .ok s) : s.text.toList = e.skeleton.spelling nested := by
  induction e generalizing nested s with
  | constant value type mapping =>
    cases value with
    | none =>
      cases h
      rfl
    | some value =>
      cases h
      rfl
  | unary op operand type mapping ih =>
    rw [render] at h
    obtain ⟨t, ht, h⟩ := exists_of_bind_eq_ok h
    cases h
    rw [Statement.text_append, String.toList_append, ih ht]
    rfl
  | binary op left right type mapping ihl ihr =>
    rw [render] at h
    rw [skeleton]
    split at h
    · rename_i test hop hright
      obtain ⟨t, ht, h⟩ := exists_of_bind_eq_ok h
      cases h
      obtain ⟨negated, hskeleton, htest⟩ := Skeleton.ofBinary_of_right hop left.isNull
        left.skeleton right.skeleton
      rw [hright, hskeleton, Skeleton.spelling, toList_text_wrap, Statement.text_append,
        String.toList_append, ihl ht, ← htest]
      rfl
    · rename_i test hop hleft hright
      obtain ⟨t, ht, h⟩ := exists_of_bind_eq_ok h
      cases h
      obtain ⟨negated, hskeleton, htest⟩ := Skeleton.ofBinary_of_left hop left.skeleton
        right.skeleton
      rw [hleft, hright, hskeleton, Skeleton.spelling, toList_text_wrap, Statement.text_append,
        String.toList_append, ihr ht, ← htest]
      rfl
    · rename_i hright hleft
      obtain ⟨t, ht, h⟩ := exists_of_bind_eq_ok h
      obtain ⟨u, hu, h⟩ := exists_of_bind_eq_ok h
      cases h
      rw [Skeleton.ofBinary_of_neither hright hleft, Skeleton.spelling, toList_text_wrap]
      simp [Statement.ofText, String.toList_append, ihl ht, ihr hu]
  | call function arguments type mapping ih =>
    rw [render] at h
    obtain ⟨ss, hss, h⟩ := exists_of_bind_eq_ok h
    cases h
    have hargs := toList_texts_renderAll (fun e he s hs => ih e he hs) hss
    have hlist : (Statement.intercalate ", " ss).text.toList =
        [',', ' '].intercalate (Skeleton.spellings (skeletons arguments)) := by
      rw [Statement.text_intercalate, String.toList_intercalate, List.map_map, ← hargs]
      rfl
    simp [Statement.ofText, String.toList_append, skeleton, Skeleton.spelling, hlist]
  | attr ref =>
    cases h
    rfl
  | row ref => cases h

end Expr

/-! ## 3. Functions -/

/-- The functions of the store that the built-in rules for calls use. -/
def IsTextFunction (name : String) : Prop := name = "BEGINS_WITH" ∨ name = "CONTAINS"

/-- A skeleton whose functions are the two on texts, each with any number of arguments. -/
inductive Skeleton.Known : Skeleton → Prop where
  | null : Known .null
  | placeholder : Known .placeholder
  | name (n : String) : Known (.name n)
  | unary (op : Expr.UnaryOp) {operand : Skeleton} (h : Known operand) : Known (.unary op operand)
  | binary (op : Expr.BinaryOp) {left right : Skeleton} (hl : Known left) (hr : Known right) :
      Known (.binary op left right)
  | nullTest (negated : Bool) {operand : Skeleton} (h : Known operand) :
      Known (.nullTest negated operand)
  | call {function : String} (hf : IsTextFunction function) {arguments : List Skeleton}
      (h : ∀ s ∈ arguments, Known s) : Known (.call function arguments)

theorem Skeleton.Known.ofBinary {left right : Skeleton} (hl : left.Known) (hr : right.Known)
    (op : Expr.BinaryOp) (leftNull rightNull : Bool) :
    (Skeleton.ofBinary op leftNull rightNull left right).Known := by
  rcases Skeleton.ofBinary_cases op leftNull rightNull left right with
    ⟨_, negated, heq⟩ | ⟨_, negated, heq⟩ | heq
  · exact heq ▸ .nullTest negated hl
  · exact heq ▸ .nullTest negated hr
  · exact heq ▸ .binary op hl hr

namespace Expr

/-- The skeleton of an expression has no other functions than the expression. -/
theorem known_skeleton {e : Expr} (h : ∀ name ∈ e.functions, IsTextFunction name) :
    e.skeleton.Known := by
  induction e with
  | constant value type mapping =>
    cases value with
    | none => exact .null
    | some value => exact .placeholder
  | unary op operand type mapping ih => exact .unary op (ih h)
  | binary op left right type mapping ihl ihr =>
    rw [functions_binary] at h
    have hl := ihl fun name hn => h name (List.mem_append_left _ hn)
    have hr := ihr fun name hn => h name (List.mem_append_right _ hn)
    exact hl.ofBinary hr op left.isNull right.isNull
  | call function arguments type mapping ih =>
    rw [functions_call] at h
    rw [skeleton, skeletons_eq_map]
    refine .call (h function List.mem_cons_self) fun s hs => ?_
    obtain ⟨e, he, rfl⟩ := List.mem_map.mp hs
    exact ih e he fun name hn =>
      h name (List.mem_cons_of_mem _ (List.mem_flatMap.mpr ⟨e, he, hn⟩))
  | attr ref => exact .name _
  | row ref => exact .null

/-- A scalar expression has no functions but the two on texts. -/
theorem isTextFunction_of_isScalar {e : Expr} (h : e.isScalar = true) :
    ∀ name ∈ e.functions, IsTextFunction name := by
  intro name hname
  obtain ⟨n, hn, hfunction⟩ := List.mem_filterMap.mp hname
  have hscalar := isScalar_of_mem_nodes h n hn
  cases n with
  | call function arguments type mapping =>
    cases hfunction
    exact (isScalar_call hscalar).1
  | _ => cases hfunction

end Expr

end EntityQuery
