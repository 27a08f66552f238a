import EntityQuery.Term.Basic

/-!
Chains of query operators: `Person.Where(p => p.Age > 10).Select(p => p.Name)`.

* `Operator` -- one operator with its arguments, `source` being the entity that a chain starts
  from; operators that take the same arguments share a constructor;
* `Chain` -- operators in the order in which they apply;
* `Operator.name`, `Operator.text`, `Chain.text` -- the name alone, and the text in a query;
* `Operator.document`, `Chain.document` -- operators as documents.
-/
namespace EntityQuery

/-! ## 1. Families of operators -/

/-- Operators with a lambda over the rows, besides filter and projection. -/
inductive RowOperator where
  | selectMany
  | skipWhile
  | takeWhile
  | all
  | groupBy
  deriving DecidableEq

/-- The name of an operator over rows. -/
def RowOperator.name : RowOperator → String
  | .selectMany => "SelectMany"
  | .skipWhile => "SkipWhile"
  | .takeWhile => "TakeWhile"
  | .all => "All"
  | .groupBy => "GroupBy"

/-- Operators that bring the rows to one value, over a lambda or the rows themselves. -/
inductive Aggregate where
  | count
  | longCount
  | any
  | sum
  | min
  | max
  | average
  deriving DecidableEq

/-- The name of an aggregate. -/
def Aggregate.name : Aggregate → String
  | .count => "Count"
  | .longCount => "LongCount"
  | .any => "Any"
  | .sum => "Sum"
  | .min => "Min"
  | .max => "Max"
  | .average => "Average"

/-- Operators that pick one row. -/
inductive Pick where
  | first
  | single
  | last
  deriving DecidableEq

/-- The name of a pick that must find a row. -/
def Pick.name : Pick → String
  | .first => "First"
  | .single => "Single"
  | .last => "Last"

/-- Operators with one term. -/
inductive TermOperator where
  | skip
  | take
  | contains
  deriving DecidableEq

/-- The name of an operator with one term. -/
def TermOperator.name : TermOperator → String
  | .skip => "Skip"
  | .take => "Take"
  | .contains => "Contains"

/-- Operators without arguments. -/
inductive PlainOperator where
  | distinct
  | reverse
  deriving DecidableEq

/-- The name of an operator without arguments. -/
def PlainOperator.name : PlainOperator → String
  | .distinct => "Distinct"
  | .reverse => "Reverse"

/-- Operators that combine the rows of two chains. -/
inductive Combination where
  | union
  | concat
  | intersect
  | except
  deriving DecidableEq

/-- The name of a combination. -/
def Combination.name : Combination → String
  | .union => "Union"
  | .concat => "Concat"
  | .intersect => "Intersect"
  | .except => "Except"

/-- Operators with a type argument. -/
inductive TypeOperator where
  | cast
  | ofType
  deriving DecidableEq

/-- The name of an operator with a type argument. -/
def TypeOperator.name : TypeOperator → String
  | .cast => "Cast"
  | .ofType => "OfType"

/-! ## 2. Operators and chains -/

/-- A query operator with its arguments. -/
inductive Operator where
  | source (entity : String)
  | filter (predicate : Lambda)
  | project (selector : Lambda)
  | order (continued : Bool) (key : Lambda) (ascending : Bool)
  | overRows (kind : RowOperator) (lambda : Lambda)
  | aggregate (kind : Aggregate) (lambda : Option Lambda)
  | pick (kind : Pick) (predicate : Option Lambda) (orDefault : Bool)
  | elementAt (index : Term) (orDefault : Bool)
  | withTerm (kind : TermOperator) (argument : Term)
  | defaultIfEmpty (value : Option Term)
  | plain (kind : PlainOperator)
  | combine (kind : Combination) (other : List Operator)
  | join (grouped : Bool) (inner : List Operator) (outerKey innerKey result : Lambda)
  | typed (kind : TypeOperator) (type : ValueType)

/-- Operators in the order in which they apply. -/
abbrev Chain := List Operator

namespace Operator

/-- The name of an operator. -/
def name : Operator → String
  | .source _ => "FromEntity"
  | .filter _ => "Where"
  | .project _ => "Select"
  | .order continued _ ascending =>
    (if continued then "ThenBy" else "OrderBy") ++ (if ascending then "" else "Descending")
  | .overRows kind _ => kind.name
  | .aggregate kind _ => kind.name
  | .pick kind _ orDefault => kind.name ++ (if orDefault then "OrDefault" else "")
  | .elementAt _ orDefault => "ElementAt" ++ (if orDefault then "OrDefault" else "")
  | .withTerm kind _ => kind.name
  | .defaultIfEmpty _ => "DefaultIfEmpty"
  | .plain kind => kind.name
  | .combine kind _ => kind.name
  | .join grouped _ _ _ _ => if grouped then "GroupJoin" else "Join"
  | .typed kind _ => kind.name

/-- An operator applied to the text of its arguments. -/
def applied (op : Operator) (arguments : String) : String := op.name ++ "(" ++ arguments ++ ")"

/-! ## 3. Text -/

mutual
/-- The text of an operator. A chain starts with the bare name of its entity. -/
def text : Operator → String
  | .source entity => entity
  | .filter l => applied (.filter l) l.text
  | .project l => applied (.project l) l.text
  | .order continued l ascending => applied (.order continued l ascending) l.text
  | .overRows kind l => applied (.overRows kind l) l.text
  | .aggregate kind l => applied (.aggregate kind l) ((l.map Lambda.text).getD "")
  | .pick kind l orDefault => applied (.pick kind l orDefault) ((l.map Lambda.text).getD "")
  | .elementAt index orDefault => applied (.elementAt index orDefault) index.text
  | .withTerm kind t => applied (.withTerm kind t) t.text
  | .defaultIfEmpty t => applied (.defaultIfEmpty t) ((t.map Term.text).getD "")
  | .plain kind => applied (.plain kind) ""
  | .combine kind other => kind.name ++ "(" ++ ".".intercalate (texts other) ++ ")"
  | .join grouped inner outerKey innerKey result =>
    (if grouped then "GroupJoin(" else "Join(") ++ ".".intercalate (texts inner) ++ ", "
      ++ outerKey.text ++ ", " ++ innerKey.text ++ ", " ++ result.text ++ ")"
  | .typed kind type => kind.name ++ "<" ++ type.text ++ ">()"

/-- The texts of operators in turn. -/
def texts : List Operator → List String
  | [] => []
  | op :: rest => text op :: texts rest
end

/-! ## 4. Documents -/

mutual
/-- An operator as a document. -/
def document : Operator → Document
  | .source entity => .tagged "FromEntity" (.text entity)
  | .filter l => .tagged "Where" l.document
  | .project l => .tagged "Select" l.document
  | .order continued l ascending =>
    .tagged (if continued then "ThenBy" else "OrderBy")
      (.record [("key_selector", l.document), ("ascending", .flag ascending)])
  | .overRows kind l => .tagged kind.name l.document
  | .aggregate kind l => .tagged kind.name (.optional Lambda.document l)
  | .pick kind l orDefault =>
    .tagged kind.name
      (.record [("predicate", .optional Lambda.document l), ("or_default", .flag orDefault)])
  | .elementAt index orDefault =>
    .tagged "ElementAt" (.record [("index", index.document), ("or_default", .flag orDefault)])
  | .withTerm kind t => .tagged kind.name t.document
  | .defaultIfEmpty t => .tagged "DefaultIfEmpty" (.optional Term.document t)
  | .plain kind => .text kind.name
  | .combine kind other =>
    .tagged kind.name (.record [("operators", .list (documents other))])
  | .join grouped inner outerKey innerKey result =>
    .tagged (if grouped then "GroupJoin" else "Join")
      (.record [("inner", .record [("operators", .list (documents inner))]),
        ("outer_key", outerKey.document), ("inner_key", innerKey.document),
        ("result", result.document)])
  | .typed kind type => .tagged kind.name type.document

/-- The documents of operators in turn. -/
def documents : List Operator → List Document
  | [] => []
  | op :: rest => document op :: documents rest
end

end Operator

namespace Chain

/-- The texts of the operators with points between them. -/
def text (chain : Chain) : String := ".".intercalate (Operator.texts chain)

/-- A chain as a document. -/
def document (chain : Chain) : Document :=
  .record [("operators", .list (Operator.documents chain))]

end Chain

end EntityQuery
