import EntityQuery.Reader.Literal

/-!
Terms in queries.

From loosest to tightest the binary operators stand on seven levels (`Reader.levels`), all of them
left-associative; then come the operators before an operand and casts, then member accesses and
calls. The grammar nests: `Grammar` holds the readers of one depth of nesting, `Grammar.next` those
of the next one, and a text can nest no deeper than it has characters.

* `Reader.term` -- a term;
* `Reader.lambda` -- a parameter, an arrow and a term; in it a call on a name that is not the
  parameter is a call on a type (`Term.withOwners`).
-/
namespace EntityQuery

open Text

/-! ## 1. Names of types -/

/-- The primitive type that a name stands for in a query. -/
def ValueType.ofKeyword? (name : String) : Option ValueType :=
  [("bool", .bool), ("Boolean", .bool), ("int", .int32), ("Int32", .int32), ("long", .int64),
    ("Int64", .int64), ("double", .double), ("Double", .double), ("float", .double),
    ("Single", .double), ("decimal", .decimal), ("Decimal", .decimal), ("string", .string),
    ("String", .string), ("char", .char), ("Char", .char), ("DateTime", .dateTime),
    ("object", .object), ("Object", .object)].lookup name

namespace Term

/-! ## 2. Shapes of terms that are built while reading -/

/-- The negative of a number that has one, else the term under the operator. -/
def negated : Term → Term
  | .constant (some value) type =>
    match value.neg? with
    | some v => .ofLiteral v
    | none => .unary .negate (.constant (some value) type)
  | t => .unary .negate t

mutual
/-- Calls on names other than the parameter become calls on types. -/
def withOwners (param : String) : Term → Term
  | .call (.parameter name) method arguments =>
    if name = param then .call (.parameter name) method (withOwnersAll param arguments)
    else .ownerCall ⟨some name, method.name⟩ (withOwnersAll param arguments)
  | .call receiver method arguments =>
    .call (withOwners param receiver) method (withOwnersAll param arguments)
  | .ownerCall method arguments => .ownerCall method (withOwnersAll param arguments)
  | .member target label => .member (withOwners param target) label
  | .unary op operand => .unary op (withOwners param operand)
  | .binary op left right => .binary op (withOwners param left) (withOwners param right)
  | .object members => .object (withOwnersIn param members)
  | .conditional test whenTrue whenFalse =>
    .conditional (withOwners param test) (withOwners param whenTrue) (withOwners param whenFalse)
  | t => t

/-- The same in each of the terms. -/
def withOwnersAll (param : String) : List Term → List Term
  | [] => []
  | t :: rest => withOwners param t :: withOwnersAll param rest

/-- The same in each of the members. -/
def withOwnersIn (param : String) : List (String × Term) → List (String × Term)
  | [] => []
  | (label, t) :: rest => (label, withOwners param t) :: withOwnersIn param rest
end

/-- The label that a member of an object takes from its value. -/
def ownLabel? : Term → Option String
  | .member _ label => some label
  | .parameter name => some name
  | _ => none

end Term

namespace Reader

/-! ## 3. Binary operators -/

/-- The first of the operators whose sign comes next. -/
def sign : List BinaryOp → Reader BinaryOp
  | [] => fun s => .error ⟨s, .unexpected .symbol⟩
  | op :: ops => fun s =>
    match symbol op.symbol s with
    | .ok _ rest => .ok op rest
    | _ => sign ops s

/-- Operands with operators of one level between them, grouped from the left. -/
def binaryLevel (ops : List BinaryOp) (operand : Reader Term) : Reader Term := do
  let first ← operand
  iterate (fun left => do
    let op ← sign ops
    let right ← cut operand
    return .binary op left right) first

/-- The levels of binary operators from loosest to tightest. Within a level a sign comes before
    those it starts with. -/
def levels : List (List BinaryOp) :=
  [[.or], [.and], [.equal, .notEqual], [.lessEqual, .greaterEqual, .less, .greater], [.coalesce],
    [.add, .subtract], [.multiply, .divide, .modulo]]

/-- All levels of binary operators over operands. -/
def binaryLevels (operand : Reader Term) : Reader Term := levels.foldr binaryLevel operand

/-! ## 4. Atoms, members and calls -/

/-- A label and an equals sign that is not the start of another symbol. -/
def memberLabel : Reader String := do
  let label ← name
  symbol "="
  match ← here with
  | c :: rest =>
    if c = '=' || c = '>' then errorAt (c :: rest) (.unexpected .symbol) else return label
  | [] => return label

/-- A member of an object: a label with a term, or a value that has a name itself. -/
def objectMember (term access : Reader Term) : Reader (String × Term) := fun s =>
  match memberLabel s with
  | .ok label rest =>
    (do let t ← cut term
        return (label, t)) rest
  | _ =>
    (do let t ← access
        match t.ownLabel? with
        | some label => return (label, t)
        | none => failAt (skipWhite s) .memberUnnamed) s

/-- The members of an object in braces. -/
def object (term access : Reader Term) : Reader Term := do
  let members ←
    between (cut (symbol "\x7b")) (separated₁ (symbol ",") (objectMember term access))
      (cut (symbol "\x7d"))
  return .object members

/-- A keyword, an object construction or a parameter. -/
def word (term access : Reader Term) : Reader Term := do
  let w ← name
  if w = "true" then return .ofLiteral (.bool true)
  else if w = "false" then return .ofLiteral (.bool false)
  else if w = "null" then return .null .object
  else if w = "new" then object term access
  else return .parameter w

/-- A literal, a term in parentheses or a word. -/
def atom (term access : Reader Term) : Reader Term :=
  firstOf number [stringLiteral, charLiteral, between (symbol "(") term (cut (symbol ")")),
    word term access]

/-- The arguments of a call. -/
def arguments (term : Reader Term) : Reader (List Term) :=
  between (symbol "(") (separated (symbol ",") term) (cut (symbol ")"))

/-- A member of a term, or a call on it if arguments follow. -/
def accessStep (term : Reader Term) (target : Term) : Reader Term := do
  symbol "."
  let label ← name
  match ← optional (arguments term) with
  | some args => return .call target ⟨none, label⟩ args
  | none => return .member target label

/-- An atom with any number of member accesses and calls. -/
def accesses (term access : Reader Term) : Reader Term := do
  let first ← atom term access
  iterate (accessStep term) first

/-! ## 5. Operators before an operand -/

/-- The name of a primitive type. -/
def castType : Reader ValueType := do
  let start ← here
  let keyword ← name
  match ValueType.ofKeyword? keyword with
  | some type => return type
  | none => errorAt start (.unexpected .symbol)

/-- An operator and its operand, from which there is no way back. -/
def signed (token : String) (unary : Reader Term) (build : Term → Term) : Reader Term := do
  symbol token
  let t ← cut unary
  return build t

/-- A primitive type in parentheses and the operand of the cast. -/
def castTo (unary : Reader Term) : Reader Term := do
  let type ← between (symbol "(") castType (symbol ")")
  let t ← unary
  return .unary (.convert type) t

/-! ## 6. Nesting -/

/-- The readers of operands at one depth of nesting: with operators in front, and without. -/
structure Grammar where
  unary : Reader Term
  access : Reader Term

namespace Grammar

/-- Terms at this depth. -/
def term (g : Grammar) : Reader Term := binaryLevels g.unary

/-- The readers whose nested terms are those of this depth. -/
def next (g : Grammar) : Grammar :=
  let access := accesses g.term g.access
  { access := access
    unary := firstOf (signed "!" g.unary (.unary .not)) [signed "-" g.unary .negated,
      signed "+" g.unary (.unary .plus), castTo g.unary, access] }

/-- The readers with so many depths of nesting. -/
def nested : Nat → Grammar
  | 0 => { unary := fun s => .failure ⟨s, .tooDeep⟩, access := fun s => .failure ⟨s, .tooDeep⟩ }
  | n + 1 => (nested n).next

end Grammar

/-- A term. Every depth of nesting takes a character, so the text's length is depth enough. -/
def term : Reader Term := fun s => (Grammar.nested (s.length + 1)).term s

/-- A parameter, an arrow, a term. -/
def lambda : Reader Lambda := do
  let param ← name
  symbol "=>"
  let body ← cut term
  return { parameter := param, body := body.withOwners param }

end Reader

end EntityQuery
