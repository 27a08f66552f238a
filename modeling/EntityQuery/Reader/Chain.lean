import EntityQuery.Chain
import EntityQuery.Reader.Term

/-!
Chains of operators in queries, and the readers of whole texts.

* `Reader.argumentsOf?` -- the reader of the arguments of an operator, by the operator's name;
* `Reader.operator` -- a name, a type in angle brackets where the operator wants one, and
  arguments;
* `Chain.read`, `Lambda.read` -- the chain or lambda that fills a text, or why there is none and at
  which byte.
-/
namespace EntityQuery

open Text

namespace Reader

/-! ## 1. Arguments -/

/-- One lambda, which must be there. -/
def lambdaFor (build : Lambda → Operator) : Reader Operator := build <$> cut lambda

/-- One lambda, which may be left out. -/
def lambdaMaybe (build : Option Lambda → Operator) : Reader Operator := build <$> optional lambda

/-- One term, which must be there. -/
def termFor (build : Term → Operator) : Reader Operator := build <$> cut term

/-- A chain, two keys and a result. -/
def joinArguments (chain : Reader Chain) (grouped : Bool) : Reader Operator := cut do
  let inner ← chain
  symbol ","
  let outerKey ← lambda
  symbol ","
  let innerKey ← lambda
  symbol ","
  let result ← lambda
  return .join grouped inner outerKey innerKey result

/-- The names of the operators without a type argument, with the readers of their arguments. -/
def argumentTable (chain : Reader Chain) : List (String × Reader Operator) :=
  [("Where", lambdaFor .filter), ("Select", lambdaFor .project)]
  ++ [RowOperator.selectMany, .skipWhile, .takeWhile, .all, .groupBy].map
      (fun kind => (kind.name, lambdaFor (.overRows kind)))
  ++ [("OrderBy", lambdaFor (.order false · true)),
      ("OrderByDescending", lambdaFor (.order false · false)),
      ("ThenBy", lambdaFor (.order true · true)),
      ("ThenByDescending", lambdaFor (.order true · false))]
  ++ [Aggregate.count, .longCount, .any, .sum, .min, .max, .average].map
      (fun kind => (kind.name, lambdaMaybe (.aggregate kind)))
  ++ [Pick.first, .single, .last].map
      (fun kind => (kind.name, lambdaMaybe (.pick kind · false)))
  ++ [Pick.first, .single, .last].map
      (fun kind => (kind.name ++ "OrDefault", lambdaMaybe (.pick kind · true)))
  ++ [("ElementAt", termFor (.elementAt · false)),
      ("ElementAtOrDefault", termFor (.elementAt · true))]
  ++ [TermOperator.skip, .take, .contains].map
      (fun kind => (kind.name, termFor (.withTerm kind)))
  ++ [("DefaultIfEmpty", Operator.defaultIfEmpty <$> optional term)]
  ++ [PlainOperator.distinct, .reverse].map
      (fun kind => (kind.name, Reader.pure (.plain kind)))
  ++ [Combination.union, .concat, .intersect, .except].map
      (fun kind => (kind.name, Operator.combine kind <$> cut chain))
  ++ [("Join", joinArguments chain false), ("GroupJoin", joinArguments chain true)]

/-- The operator with a type argument that has a given name. -/
def typeOperatorNamed? (name : String) : Option TypeOperator :=
  [TypeOperator.cast, .ofType].find? fun kind => kind.name = name

/-- The reader of the arguments of an operator, if there is such an operator. -/
def argumentsOf? (chain : Reader Chain) (name : String) : Option (Reader Operator) :=
  (argumentTable chain).lookup name

/-! ## 2. Operators and chains -/

/-- A primitive type, or else an entity of the name. -/
def typeName : Reader ValueType := do
  let n ← name
  return (ValueType.ofKeyword? n).getD (.entity n)

/-- The arguments of the operator with a name. An operator with a type argument takes no other. -/
def operatorArguments (chain : Reader Chain) (start : List Char) (operator : String)
    (type : Option ValueType) : Reader Operator :=
  match typeOperatorNamed? operator, argumentsOf? chain operator with
  | some kind, _ =>
    match type with
    | some t => return .typed kind t
    | none => failAt start (.typeMissing operator)
  | none, some r => do
    let op ← r
    if type.isSome then failAt start (.typeUnwanted operator) else return op
  | none, none => failAt start (.unknownOperator operator)

/-- An operator with its arguments. -/
def operator (chain : Reader Chain) : Reader Operator := do
  let start ← here
  let n ← name
  let type ← optional (between (symbol "<") typeName (cut (symbol ">")))
  cut (symbol "(")
  let op ← operatorArguments chain (skipWhite start) n type
  cut (symbol ")")
  return op

/-- A chain whose operators hold chains of one depth less. -/
def chainAt : Nat → Reader Chain
  | 0 => fun s => .failure ⟨s, .tooDeep⟩
  | n + 1 => do
    let entity ← name
    iterate (fun ops => do
      symbol "."
      let op ← operator (chainAt n)
      return ops ++ [op]) [.source entity]

/-- A chain. Every depth of nesting takes a character, so the text's length is depth enough. -/
def chain : Reader Chain := fun s => chainAt (s.length + 1) s

end Reader

/-! ## 3. Whole texts -/

/-- The number of bytes of a text in UTF-8. -/
def utf8Size : List Char → Nat
  | [] => 0
  | c :: s => c.utf8Size + utf8Size s

/-- Why a text cannot be read, and at which byte. -/
structure ReadFault where
  position : Nat
  cause : Cause
  deriving DecidableEq

/-- The fault in words. -/
def ReadFault.message (f : ReadFault) : String :=
  s!"Parse error at position {f.position}: {f.cause.message}"

/-- The value that fills a text up to white space at its end. -/
def Reader.readAll {α : Type} (r : Reader α) (text : String) : Except ReadFault α :=
  let input := text.toList
  let fault (rest : List Char) (cause : Cause) : Except ReadFault α :=
    .error { position := utf8Size input - utf8Size rest, cause := cause }
  match r input with
  | .ok a rest =>
    let rest := skipWhite rest
    if rest.isEmpty then .ok a else fault rest (.trailing (String.ofList rest))
  | .error f => fault f.rest f.cause
  | .failure f => fault f.rest f.cause

/-- The chain that a text spells. -/
def Chain.read (text : String) : Except ReadFault Chain := Reader.chain.readAll text

/-- The lambda that a text spells. -/
def Lambda.read (text : String) : Except ReadFault Lambda := Reader.lambda.readAll text

end EntityQuery
