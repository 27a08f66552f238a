import EntityQuery.Text.Space

/-!
Readers: functions that read a value off the front of a text.

* `Reader` -- takes the text and gives an `Outcome`;
* `Outcome.error` and `Outcome.failure` -- the two ways not to succeed: an error lets another
  reader try the same text, a failure ends reading at once;
* `Fault` -- why reading stopped, with the text from the place where it did;
* `Reader.cut` turns errors into failures, `Reader.orElse` tries a second reader, and
  `Reader.iterate` repeats a step as long as it succeeds.
-/
namespace EntityQuery

/-! ## 1. Outcomes -/

/-- What a reader was looking for where it found something else. -/
inductive Expectation where
  | symbol
  | name
  | digit
  deriving DecidableEq

/-- Why reading stopped. -/
inductive Cause where
  | unexpected (expected : Expectation)
  | missing (c : Char)
  | unknownOperator (name : String)
  | typeMissing (operator : String)
  | typeUnwanted (operator : String)
  | memberUnnamed
  | invalidNumber (digits : String)
  | unterminated
  | notOneCharacter
  | tooDeep
  | trailing (text : String)
  deriving DecidableEq

/-- The word for what was looked for. -/
def Expectation.text : Expectation → String
  | .symbol => "Tag"
  | .name => "Satisfy"
  | .digit => "Digit"

/-- The cause in words. -/
def Cause.message : Cause → String
  | .unexpected e => s!"unexpected input ({e.text})"
  | .missing c => s!"expected '{c}'"
  | .unknownOperator name => s!"unknown query operator '{name}'"
  | .typeMissing name => s!"{name} requires a type argument"
  | .typeUnwanted name => s!"{name} does not take a type argument"
  | .memberUnnamed => "anonymous object member needs a name"
  | .invalidNumber digits => s!"invalid numeric literal '{digits}'"
  | .unterminated => "unterminated literal"
  | .notOneCharacter => "character literal must hold exactly one character"
  | .tooDeep => "nested too deeply"
  | .trailing text => s!"Unexpected trailing content: '{text}'"

/-- Why and where reading stopped; the place is given by the text from it on. -/
structure Fault where
  rest : List Char
  cause : Cause
  deriving DecidableEq

/-- Of two faults the one that got further; the first if neither did. -/
def Fault.further (a b : Fault) : Fault := if b.rest.length < a.rest.length then b else a

/-- What comes of reading: a value and the rest of the text, an error that another reader may mend,
    or a failure that none can. -/
inductive Outcome (α : Type) where
  | ok (value : α) (rest : List Char)
  | error (fault : Fault)
  | failure (fault : Fault)
  deriving DecidableEq

/-! ## 2. Readers -/

/-- A reader of values off the front of a text. -/
def Reader (α : Type) := List Char → Outcome α

namespace Reader

variable {α β : Type}

/-- The value is given and nothing is read. -/
protected def pure (a : α) : Reader α := fun s => .ok a s

/-- One reader after another. -/
protected def bind (r : Reader α) (f : α → Reader β) : Reader β := fun s =>
  match r s with
  | .ok a rest => f a rest
  | .error fault => .error fault
  | .failure fault => .failure fault

instance : Monad Reader where
  pure := Reader.pure
  bind := Reader.bind

@[simp] theorem pure_apply (a : α) (s : List Char) : (pure a : Reader α) s = .ok a s := rfl

@[simp] theorem bind_apply (r : Reader α) (f : α → Reader β) (s : List Char) :
    (r >>= f) s =
      match r s with
      | .ok a rest => f a rest
      | .error fault => .error fault
      | .failure fault => .failure fault := rfl

/-- The text that is left, unread. -/
def here : Reader (List Char) := fun s => .ok s s

/-- An error at a place. -/
def errorAt (place : List Char) (cause : Cause) : Reader α := fun _ => .error ⟨place, cause⟩

/-- A failure at a place. -/
def failAt (place : List Char) (cause : Cause) : Reader α := fun _ => .failure ⟨place, cause⟩

/-- No way back: an error becomes a failure. -/
def cut (r : Reader α) : Reader α := fun s =>
  match r s with
  | .error fault => .failure fault
  | outcome => outcome

/-- The second reader tries the same text where the first has an error. If it has one too, the one
    that got further is kept. -/
def orElse (r₁ r₂ : Reader α) : Reader α := fun s =>
  match r₁ s with
  | .error f₁ =>
    match r₂ s with
    | .error f₂ => .error (f₁.further f₂)
    | outcome => outcome
  | outcome => outcome

/-- The first of several readers without an error, after a first one. -/
def firstOf (r : Reader α) (rs : List (Reader α)) : Reader α := rs.foldl orElse r

/-- A value, or none where the reader has an error; then nothing is read. -/
def optional (r : Reader α) : Reader (Option α) := fun s =>
  match r s with
  | .ok a rest => .ok (some a) rest
  | .error _ => .ok none s
  | .failure fault => .failure fault

/-- A step repeated at most so many times, until it has an error. -/
def iterateAtMost (step : α → Reader α) : Nat → α → Reader α
  | 0, a => Reader.pure a
  | n + 1, a => fun s =>
    match step a s with
    | .ok b rest => iterateAtMost step n b rest
    | .error _ => .ok a s
    | .failure fault => .failure fault

/-- A step repeated until it has an error. A step that reads at least one character cannot be
    repeated more often than the text has characters. -/
def iterate (step : α → Reader α) (a : α) : Reader α := fun s =>
  iterateAtMost step s.length a s

/-- The items that follow the first one, each after a separator. -/
def itemsAfter (separator : Reader Unit) (item : Reader α) (first : α) : Reader (List α) :=
  iterate (fun items => do
    separator
    let a ← item
    return items ++ [a]) [first]

/-- One or more items with separators between them. -/
def separated₁ (separator : Reader Unit) (item : Reader α) : Reader (List α) := do
  let first ← item
  itemsAfter separator item first

/-- Any number of items with separators between them. -/
def separated (separator : Reader Unit) (item : Reader α) : Reader (List α) := do
  match ← optional item with
  | some first => itemsAfter separator item first
  | none => return []

end Reader

end EntityQuery
