import EntityQuery.Number.Power
import EntityQuery.Text.Digits
import EntityQuery.Text.Scan
import EntityQuery.Text.Space

/-!
Calendar dates with a time of day and no time zone, to the nanosecond.

* `DateTime` -- the fields; the second 60 is a leap second;
* `DateTime.text` -- `2024-03-01T12:30:00`, with a fraction of 3, 6 or 9 digits unless it is zero;
* `DateTime.read?` -- reads such a text, with shorter fields and white space before fields and
  separators, and any number of digits in the fraction.
-/
namespace EntityQuery

open Text

/-- A date and a time of day. -/
structure DateTime where
  year : Int
  month : Nat
  day : Nat
  hour : Nat
  minute : Nat
  second : Nat
  nanosecond : Nat
  deriving DecidableEq

namespace DateTime

/-! ## 1. Writing -/

/-- Four digits for the years 0 to 9999, and a sign in front of all others. -/
def yearText (y : Int) : String :=
  if y < 0 then "-" ++ zeroPadded 4 y.natAbs
  else if 9999 < y then "+" ++ zeroPadded 4 y.natAbs
  else zeroPadded 4 y.natAbs

/-- Nothing for zero, else a point and the fewest of 3, 6 or 9 digits that lose nothing. -/
def fractionText (n : Nat) : String :=
  if n = 0 then ""
  else if n % 1000000 = 0 then "." ++ zeroPadded 3 (n / 1000000)
  else if n % 1000 = 0 then "." ++ zeroPadded 6 (n / 1000)
  else "." ++ zeroPadded 9 n

/-- Date, the letter `T`, time. -/
def text (t : DateTime) : String :=
  yearText t.year ++ "-" ++ zeroPadded 2 t.month ++ "-" ++ zeroPadded 2 t.day ++ "T"
    ++ zeroPadded 2 t.hour ++ ":" ++ zeroPadded 2 t.minute ++ ":" ++ zeroPadded 2 t.second
    ++ fractionText t.nanosecond

/-! ## 2. Validity -/

/-- Years with a 29th of February. -/
def isLeap (y : Int) : Bool :=
  y % 4 == 0 && (y % 100 != 0 || y % 400 == 0)

/-- The days of a month. -/
def daysIn (y : Int) (month : Nat) : Nat :=
  if month = 2 then (if isLeap y then 29 else 28)
  else if month = 4 || month = 6 || month = 9 || month = 11 then 30
  else 31

/-- The date exists and the time is one of a day. -/
def isValid (t : DateTime) : Bool :=
  -262143 ≤ t.year && t.year ≤ 262142 && 1 ≤ t.month && t.month ≤ 12 && 1 ≤ t.day
    && t.day ≤ daysIn t.year t.month && t.hour < 24 && t.minute < 60 && t.second ≤ 60

/-! ## 3. Reading -/

/-- White space, then one to `limit` digits. -/
def number (limit : Nat) : Scan Nat := fun s => takeNumber? limit (skipWhite s)

/-- White space, then a separator. -/
def separator (c : Char) : Scan Unit := fun s =>
  match skipWhite s with
  | d :: rest => if d = c then some ((), rest) else none
  | [] => none

/-- White space, then a year: with a sign any number of digits, without one at most four. -/
def yearNumber : Scan Int := fun s =>
  match skipWhite s with
  | '-' :: rest => (takeNumber? rest.length rest).map fun (n, r) => (-(n : Int), r)
  | '+' :: rest => (takeNumber? rest.length rest).map fun (n, r) => ((n : Int), r)
  | rest => (takeNumber? 4 rest).map fun (n, r) => ((n : Int), r)

/-- An optional fraction of a second. Digits after the ninth are passed over. -/
def fraction : Scan Nat := fun s =>
  match s with
  | '.' :: rest =>
    (takeNumber? 9 rest).map fun (n, r) =>
      (n * tenPow (9 - (rest.length - r.length)), r.dropWhile Char.isDigit)
  | _ => some (0, s)

/-- All fields in order, and white space at the end. -/
def fields : Scan DateTime := do
  let year ← yearNumber
  separator '-'
  let month ← number 2
  separator '-'
  let day ← number 2
  separator 'T'
  let hour ← number 2
  separator ':'
  let minute ← number 2
  separator ':'
  let second ← number 2
  let nanosecond ← fraction
  return { year, month, day, hour, minute, second, nanosecond }

/-- The date and time that a text spells. -/
def read? (text : List Char) : Option DateTime :=
  match fields text with
  | some (t, rest) => if t.isValid && (skipWhite rest).isEmpty then some t else none
  | none => none

end DateTime

end EntityQuery
