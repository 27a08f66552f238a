import EntityQuery.Literal
import EntityQuery.Path

/-!
Terms: the expressions in the lambdas of a query.

* `Term` -- an expression tree; besides what a query can say it has two nodes for the rows of a
  query under way: `entity`, a whole row bound at a path, and `binding`, the value at a path;
* `Lambda` -- a term with a parameter;
* `Term.text`, `Lambda.text` -- the text in a query, with every binary operation in parentheses;
* `Term.document` -- the tree as a document.
-/
namespace EntityQuery

/-! ## 1. Operators -/

/-- Operators before an operand. `convert` is a cast. -/
inductive UnaryOp where
  | not
  | negate
  | negateChecked
  | plus
  | convert (target : ValueType)
  | complement
  | arrayLength
  deriving DecidableEq

namespace UnaryOp

/-- The name of an operator without regard to a cast's target. -/
def tag : UnaryOp → String
  | .not => "Not"
  | .negate => "Negate"
  | .negateChecked => "NegateChecked"
  | .plus => "UnaryPlus"
  | .convert _ => "Convert"
  | .complement => "OnesComplement"
  | .arrayLength => "ArrayLength"

/-- The name of an operator. -/
def text : UnaryOp → String
  | .convert target => "Convert(" ++ target.text ++ ")"
  | op => op.tag

/-- The operator with a given name that is not a cast. -/
def ofName? (name : String) : Option UnaryOp :=
  [.not, .negate, .negateChecked, .plus, .complement, .arrayLength].find? fun op => op.tag = name

/-- An operator as a document. -/
def document : UnaryOp → Document
  | .convert target => .tagged "Convert" target.document
  | op => .text op.tag

end UnaryOp

/-- Operators between two operands. -/
inductive BinaryOp where
  | and
  | or
  | equal
  | notEqual
  | less
  | lessEqual
  | greater
  | greaterEqual
  | add
  | subtract
  | multiply
  | divide
  | modulo
  | coalesce
  deriving DecidableEq

namespace BinaryOp

/-- The sign of an operator in a query. -/
def symbol : BinaryOp → String
  | .and => "&&"
  | .or => "||"
  | .equal => "=="
  | .notEqual => "!="
  | .less => "<"
  | .lessEqual => "<="
  | .greater => ">"
  | .greaterEqual => ">="
  | .add => "+"
  | .subtract => "-"
  | .multiply => "*"
  | .divide => "/"
  | .modulo => "%"
  | .coalesce => "??"

/-- The name of an operator. -/
def tag : BinaryOp → String
  | .and => "AndAlso"
  | .or => "OrElse"
  | .equal => "Equal"
  | .notEqual => "NotEqual"
  | .less => "LessThan"
  | .lessEqual => "LessThanOrEqual"
  | .greater => "GreaterThan"
  | .greaterEqual => "GreaterThanOrEqual"
  | .add => "Add"
  | .subtract => "Subtract"
  | .multiply => "Multiply"
  | .divide => "Divide"
  | .modulo => "Modulo"
  | .coalesce => "Coalesce"

/-- The operator with a given name. -/
def ofName? (name : String) : Option BinaryOp :=
  [.and, .or, .equal, .notEqual, .less, .lessEqual, .greater, .greaterEqual, .add, .subtract,
    .multiply, .divide, .modulo, .coalesce].find? fun op => op.tag = name

end BinaryOp

/-- A method by its name, and the type that owns it if it is called on a type. -/
structure Method where
  owner : Option String
  name : String
  deriving DecidableEq

namespace Method

/-- The name of a method, after its owner if it has one. -/
def text (m : Method) : String :=
  match m.owner with
  | some owner => owner ++ "." ++ m.name
  | none => m.name

/-- A method as a document. -/
def document (m : Method) : Document :=
  .record [("declaring_type", .optional .text m.owner), ("name", .text m.name)]

end Method

/-! ## 2. Terms -/

/-- An expression of a query. `call` is a call on a receiver, `ownerCall` one without. -/
inductive Term where
  | constant (value : Option Literal) (type : ValueType)
  | parameter (name : String)
  | member (target : Term) (label : String)
  | unary (op : UnaryOp) (operand : Term)
  | binary (op : BinaryOp) (left right : Term)
  | call (receiver : Term) (method : Method) (arguments : List Term)
  | ownerCall (method : Method) (arguments : List Term)
  | object (members : List (String × Term))
  | conditional (test whenTrue whenFalse : Term)
  | lambda (parameter : String) (body : Term)
  | entity (name : String) (path : Path)
  | binding (path : Path)
  deriving Inhabited

/-- A term with a parameter. -/
structure Lambda where
  parameter : String
  body : Term

namespace Term

/-- A literal as a term of its own type. -/
def ofLiteral (value : Literal) : Term := .constant (some value) value.type

/-- The missing value of a type. -/
def null (type : ValueType) : Term := .constant none type

/-- The first member with a label. -/
def memberNamed? (label : String) : List (String × Term) → Option Term
  | [] => none
  | (l, value) :: rest => if l = label then some value else memberNamed? label rest

/-! ## 3. Text -/

/-- What an operator puts before and after its operand. -/
def unaryText (op : UnaryOp) (operand : String) : String :=
  match op with
  | .not => "!" ++ operand
  | .negate => "-" ++ operand
  | .negateChecked => "-" ++ operand
  | .plus => "+" ++ operand
  | .convert target => "(" ++ target.text ++ ")" ++ operand
  | .complement => "~" ++ operand
  | .arrayLength => operand ++ ".Length"

mutual
/-- The text of a term. -/
def text : Term → String
  | .constant (some value) _ => value.text
  | .constant none _ => "null"
  | .parameter name => name
  | .member target label => text target ++ "." ++ label
  | .unary op operand => unaryText op (text operand)
  | .binary op left right => "(" ++ text left ++ " " ++ op.symbol ++ " " ++ text right ++ ")"
  | .call receiver method arguments =>
    text receiver ++ "." ++ method.text ++ "(" ++ ", ".intercalate (texts arguments) ++ ")"
  | .ownerCall method arguments =>
    method.text ++ "(" ++ ", ".intercalate (texts arguments) ++ ")"
  | .object members => "new \x7b " ++ ", ".intercalate (memberTexts members) ++ " \x7d"
  | .conditional test whenTrue whenFalse =>
    "(" ++ text test ++ " ? " ++ text whenTrue ++ " : " ++ text whenFalse ++ ")"
  | .lambda p body => p ++ " => " ++ text body
  | .entity name path => "[" ++ name ++ " @ " ++ path.text ++ "]"
  | .binding path => "[" ++ path.text ++ "]"

/-- The texts of terms in turn. -/
def texts : List Term → List String
  | [] => []
  | t :: rest => text t :: texts rest

/-- The texts of the members of an object. -/
def memberTexts : List (String × Term) → List String
  | [] => []
  | (label, t) :: rest => (label ++ " = " ++ text t) :: memberTexts rest
end

/-! ## 4. Documents -/

mutual
/-- A term as a document: each node under its tag. -/
def document : Term → Document
  | .constant value type =>
    .tagged "Constant"
      (.record [("value", .optional Literal.document value), ("host_type", type.document)])
  | .parameter name => .tagged "Parameter" (.text name)
  | .member target label =>
    .tagged "Member" (.record [("target", document target), ("member", .text label)])
  | .unary op operand =>
    .tagged "Unary" (.record [("op", op.document), ("operand", document operand)])
  | .binary op left right =>
    .tagged "Binary"
      (.record [("op", .text op.tag), ("left", document left), ("right", document right)])
  | .call receiver method arguments =>
    .tagged "MethodCall" (.record [("instance", document receiver), ("method", method.document),
      ("args", .list (documents arguments))])
  | .ownerCall method arguments =>
    .tagged "MethodCall" (.record [("instance", .null), ("method", method.document),
      ("args", .list (documents arguments))])
  | .object members => .tagged "New" (.record [("members", .list (memberDocuments members))])
  | .conditional test whenTrue whenFalse =>
    .tagged "Conditional" (.record [("test", document test), ("if_true", document whenTrue),
      ("if_false", document whenFalse)])
  | .lambda p body =>
    .tagged "Lambda" (.record [("parameter", .text p), ("body", document body)])
  | .entity name path =>
    .tagged "EntityShaper" (.record [("entity", .text name), ("binding", .text path.text)])
  | .binding path => .tagged "ProjectionBinding" (.text path.text)

/-- The documents of terms in turn. -/
def documents : List Term → List Document
  | [] => []
  | t :: rest => document t :: documents rest

/-- The documents of the members of an object, each a pair of label and term. -/
def memberDocuments : List (String × Term) → List Document
  | [] => []
  | (label, t) :: rest => .list [.text label, document t] :: memberDocuments rest
end

end Term

namespace Lambda

/-- The parameter, an arrow, the body. -/
def text (l : Lambda) : String := l.parameter ++ " => " ++ l.body.text

/-- A lambda as a document. -/
def document (l : Lambda) : Document :=
  .record [("parameter", .text l.parameter), ("body", l.body.document)]

end Lambda

end EntityQuery
