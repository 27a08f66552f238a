import EntityQuery.Number.Double

/-!
Values of TOML documents.

* `Toml.Date`, `Toml.Time`, `Toml.Moment` -- dates and times, each alone or both together;
* `Toml.Value` -- a value; the entries of a table have distinct keys.
-/
namespace EntityQuery.Toml

/-- A calendar date. -/
structure Date where
  year : Nat
  month : Nat
  day : Nat
  deriving DecidableEq

/-- A time of day; the fraction is given by its digits. -/
structure Time where
  hour : Nat
  minute : Nat
  second : Nat
  fraction : List Char := []
  deriving DecidableEq

/-- A point in time: with an offset from universal time in minutes, or local. -/
inductive Moment where
  | date (date : Date)
  | time (time : Time)
  | dateTime (date : Date) (time : Time) (offset : Option Int)
  deriving DecidableEq

/-- A value of a document. -/
inductive Value where
  | string (value : String)
  | integer (value : Int)
  | float (value : Double)
  | boolean (value : Bool)
  | moment (value : Moment)
  | array (items : List Value)
  | table (entries : List (String × Value))

/-- The value under a key. -/
def valueOf? (key : String) : List (String × Value) → Option Value
  | [] => none
  | (k, v) :: rest => if k = key then some v else valueOf? key rest

end EntityQuery.Toml
