import EntityQuery.Expr.Build
import EntityQuery.Term.Basic

/-!
Calls of methods as functions of the store.

* `CallRule` -- what becomes of a call whose receiver and arguments are expressions already, or
  nothing if the rule does not know the call;
* `CallRule.first` -- the answer of the first rule that has one;
* `CallRule.strings` -- the methods of texts that the store has functions for;
* `FunctionRule` -- a rule that hands every call of a method to one function of the store;
* `CallRule.extended` -- given rules, asked before the one for texts.
-/
namespace EntityQuery

/-- What becomes of a call on a receiver with arguments. -/
abbrev CallRule := Model → Expr → Method → List Expr → Option Expr

namespace CallRule

/-- The answer of the first rule that has one. -/
def first (rules : List CallRule) : CallRule := fun model receiver method arguments =>
  rules.findSome? fun rule => rule model receiver method arguments

/-- Types whose values can be looked for in a text. -/
def isTextual : ValueType → Bool
  | .string => true
  | .char => true
  | _ => false

/-- Calls on a text with one text or character: does it start with that, and does it hold that. -/
def strings : CallRule := fun _ receiver method arguments =>
  match method.owner, receiver.type, arguments with
  | none, .string, [argument] =>
    if isTextual argument.type then
      if method.name = "StartsWith" then some (receiver.beginsWith argument)
      else if method.name = "Contains" then some (receiver.contains argument)
      else none
    else none
  | _, _, _ => none

/-- Given rules in their order, then the rule for texts. -/
def extended (rules : List CallRule) : List CallRule := rules ++ [strings]

end CallRule

/-- Calls of a method, on receivers of one type or of any, handed to a function of the store. -/
structure FunctionRule where
  method : String
  function : String
  returns : ValueType
  receiver : Option ValueType := none

/-- The receiver becomes the first argument of the function. -/
def FunctionRule.rule (r : FunctionRule) : CallRule := fun _ receiver method arguments =>
  if method.name = r.method && (r.receiver.isNone || r.receiver = some receiver.type) then
    some (.ofCall r.function (receiver :: arguments) r.returns)
  else none

end EntityQuery
