import EntityQuery.Number.Power
import EntityQuery.Text.Digits

/-!
Decimal numbers with a scale: a whole number of at most 96 bits, divided by a power of ten. The
scale is kept, so `2.50` and `2.5` are different decimals.

* `Decimal` -- sign, coefficient and scale within their bounds; the sign is kept on zero too;
* `Decimal.text` -- all places of the scale are written;
* `Decimal.read?` -- reads a text, rounding at the first digit that has no room;
* `Decimal.shiftUp?` -- times a power of ten, without rounding;
* `Decimal.shiftDown?` -- divided by a power of ten, rounded to the 28 places that there are;
* `Decimal.ofText?` -- reads a text that may have an exponent.
-/
namespace EntityQuery

/-- The number `coefficient / 10 ^ scale` with a sign. -/
structure Decimal where
  negative : Bool
  coefficient : Nat
  scale : Nat
  coefficient_lt : coefficient < twoPow 96
  scale_le : scale ≤ 28
  deriving DecidableEq

namespace Decimal

/-- The sign is turned, on zero too. -/
def neg (d : Decimal) : Decimal := { d with negative := !d.negative }

/-! ## 1. Writing -/

/-- The decimal with all the places of its scale. -/
def text (d : Decimal) : String :=
  let ds := (Text.zeroPadded (d.scale + 1) d.coefficient).toList
  let whole := ds.take (ds.length - d.scale)
  let fraction := ds.drop (ds.length - d.scale)
  let body := if d.scale = 0 then whole else whole ++ '.' :: fraction
  String.ofList (if d.negative then '-' :: body else body)

/-! ## 2. Reading -/

/-- A decimal from its parts, if they are within bounds. Zero is read without a sign. -/
def ofParts? (negative : Bool) (coefficient scale : Nat) : Option Decimal :=
  if h : coefficient < twoPow 96 ∧ scale ≤ 28 then
    some { negative := negative && coefficient ≠ 0, coefficient := coefficient, scale := scale,
           coefficient_lt := h.1, scale_le := h.2 }
  else none

/-- The end of reading at a digit that has no room: it rounds the number before it, a half going up.
    If that overflows, one place of the scale is given up. -/
def rounded? (negative : Bool) (coefficient scale digit : Nat) : Option Decimal :=
  if digit < 5 then ofParts? negative coefficient scale
  else if coefficient + 1 < twoPow 96 then ofParts? negative (coefficient + 1) scale
  else if scale = 0 then none
  else ofParts? negative ((coefficient + 1 + 4) / 10) (scale - 1)

/-- Reads digits, one point at most, and underscores after the first digit. Reading ends where the
    scale is full or the coefficient would pass 96 bits; before the point the latter is an error,
    and after it the next character, a digit or an underscore, rounds and the rest is not looked
    at. -/
def scan (negative : Bool) : (coefficient scale : Nat) → (point digit : Bool) → List Char →
    Option Decimal
  | c, s, _, digit, [] => if digit then ofParts? negative c s else none
  | c, s, point, digit, ch :: rest =>
    if point && s = 28 then
      if ch.isDigit then rounded? negative c s (ch.toNat - '0'.toNat)
      else if ch = '_' then ofParts? negative c s
      else none
    else if ch.isDigit then
      let d := ch.toNat - '0'.toNat
      if c * 10 + d < twoPow 96 then
        scan negative (c * 10 + d) (if point then s + 1 else s) point true rest
      else if point then rounded? negative c s d
      else none
    else if ch = '.' && !point then scan negative c s true digit rest
    else if ch = '_' && digit then scan negative c s point digit rest
    else none

/-- The decimal that a text spells: an optional sign, digits, an optional point. -/
def read? : List Char → Option Decimal
  | '-' :: rest => scan true 0 0 false false rest
  | '+' :: rest => scan false 0 0 false false rest
  | s => scan false 0 0 false false s

example : (read? ['-', '2', '.', '5', '0']).map text = some "-2.50" := by decide +kernel

example : (read? ['-', '0']).map text = some "0"
    ∧ (read? ['0']).map (fun d => d.neg.text) = some "-0" := by decide +kernel

/-! ## 3. Exponents -/

/-- The decimal times `10 ^ places`. Places of the scale are used up first, and those that are left
    stay, zeros too. Where they do not suffice the result is a whole number, which has to fit, and
    then `places` is at most 28. -/
def shiftUp? (d : Decimal) (places : Nat) : Option Decimal :=
  if places ≤ d.scale then
    some { d with scale := d.scale - places
                  scale_le := Nat.le_trans (Nat.sub_le _ _) d.scale_le }
  else if places ≤ 28 then ofParts? d.negative (d.coefficient * tenPow (places - d.scale)) 0
  else none

/-- A number without its last `places` digits, rounded by the first of them, a half going up. -/
def dropDigits (n : Nat) : (places : Nat) → Nat
  | 0 => n
  | places + 1 => (n / tenPow places + 5) / 10

theorem dropDigits_lt {n bound : Nat} (h : n < bound) (places : Nat) :
    dropDigits n places < bound := by
  cases places with
  | zero => exact h
  | succ places =>
    have hle : n / tenPow places ≤ n := Nat.div_le_self _ _
    simp only [dropDigits]
    omega

/-- The decimal divided by `10 ^ places`, which are at most 28. Digits for which the scale has no
    room are dropped with rounding. The sign stays, also where nothing but zeros is left. -/
def shiftDown? (d : Decimal) (places : Nat) : Option Decimal :=
  if places ≤ 28 then
    some { negative := d.negative
           coefficient := dropDigits d.coefficient (d.scale + places - 28)
           scale := min (d.scale + places) 28
           coefficient_lt := dropDigits_lt d.coefficient_lt _
           scale_le := Nat.min_le_right _ _ }
  else none

/-- The number of an exponent: digits, which a `+` may precede. -/
def readPlaces? (s : List Char) : Option Nat :=
  let ds := if s.head? = some '+' then s.tail else s
  if ds.isEmpty || !ds.all Char.isDigit then none else some (Text.digitsValue ds)

/-- The decimal that `read?` finds before the first `e` or `E`, shifted by the exponent after it. -/
def readScientific? (s : List Char) : Option Decimal := do
  let isMark (c : Char) : Bool := c = 'e' || c = 'E'
  let d ← read? (s.takeWhile (!isMark ·))
  match (s.dropWhile (!isMark ·)).tail with
  | '-' :: places => d.shiftDown? (← readPlaces? places)
  | places => d.shiftUp? (← readPlaces? places)

/-- The decimal that a text spells, with or without an exponent. A text that `read?` accepts is read
    that way, so an exponent behind a digit that has no room is not looked at. -/
def ofText? (s : List Char) : Option Decimal := (read? s).or (readScientific? s)

example : (ofText? ['1', 'e', '5']).map text = some "100000"
    ∧ (ofText? ['1', '.', '5', '0', 'E', '+', '1']).map text = some "15.0"
    ∧ (ofText? ['-', '1', '2', 'e', '-', '3']).map text = some "-0.012" := by decide +kernel

example : (ofText? ['2', '.', '5', 'e', '-', '2', '8']).map text
      = some "0.0000000000000000000000000003"
    ∧ (ofText? ['-', '0', '.', '4', 'e', '-', '2', '8']).map text
      = some "-0.0000000000000000000000000000" := by decide +kernel

example : ofText? ['8', 'e', '2', '8'] = none ∧ ofText? ['1', 'e', '-', '2', '9'] = none
    ∧ ofText? ['1', 'e'] = none ∧ ofText? ['e', '5'] = none := by decide +kernel

end Decimal

end EntityQuery
