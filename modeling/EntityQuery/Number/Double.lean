import EntityQuery.Number.Power
import EntityQuery.Text.Digits

/-!
Binary floating point numbers of 64 bits.

* `Double` -- a number by its bits, so that two numbers are equal exactly if their bits are;
* `Double.view` -- what the bits stand for: a significand times a power of two, an infinity, or
  not a number;
* `Double.nearest` -- the double nearest to `m * 10 ^ e`, a tie going to the even significand;
* `Double.read?` -- the decimal texts of doubles, with `inf`, `infinity` and `nan` in any case.
-/
namespace EntityQuery

open Text (digitsValue)

/-- A 64-bit binary floating point number, held as its bits. -/
structure Double where
  bits : UInt64
  deriving DecidableEq, Inhabited

namespace Double

/-! ## 1. What the bits stand for -/

/-- The reading of a double: `finite s m q` is `m * 2 ^ q` with sign `s`. -/
inductive View where
  | finite (negative : Bool) (significand : Nat) (power : Int)
  | infinite (negative : Bool)
  | notANumber
  deriving DecidableEq

/-- The sign bit, the eleven bits of the exponent and the 52 bits of the fraction, read as a number.
    The exponent zero is that of the subnormal numbers, which have no hidden bit. -/
def view (x : Double) : View :=
  let n : Nat := x.bits.toNat
  let negative := decide (twoPow 63 ≤ n)
  let exponent : Nat := n / twoPow 52 % twoPow 11
  let fraction : Nat := n % twoPow 52
  if exponent = 2047 then
    if fraction = 0 then .infinite negative else .notANumber
  else if exponent = 0 then .finite negative fraction (-1074)
  else .finite negative (twoPow 52 + fraction) ((exponent : Int) - 1075)

/-- The sign is turned; all else stays. -/
def neg (x : Double) : Double := ⟨x.bits ^^^ 0x8000000000000000⟩

/-- Positive infinity. -/
def infinity : Double := ⟨0x7FF0000000000000⟩

/-- A quiet value that is not a number. -/
def nan : Double := ⟨0x7FF8000000000000⟩

/-- Neither infinite nor not a number. -/
def isFinite (x : Double) : Bool :=
  match x.view with
  | .finite _ _ _ => true
  | _ => false

/-! ## 2. The nearest double -/

/-- The quotient rounded to the nearest natural number, a half going to the even one. -/
def roundDiv (num den : Nat) : Nat :=
  let quotient := num / den
  let twice := 2 * (num % den)
  if den < twice || (twice == den && quotient % 2 == 1) then quotient + 1 else quotient

/-- The numerator and denominator of `num / den * 2 ^ (-q)`. -/
def scaleDown (num den : Nat) (q : Int) : Nat × Nat :=
  if 0 ≤ q then (num, den * twoPow q.toNat) else (num * twoPow (-q).toNat, den)

/-- The bits of the double nearest to the positive `num / den`, without sign. The power of two of
    the last place is the least one that leaves at most 53 bits, and at least `-1074`. A significand
    rounded up to `2 ^ 53` carries into the exponent, and a number too large becomes infinity. -/
def nearestBits (num den : Nat) : Nat :=
  let q : Int := max ((Nat.log2 num : Int) - (Nat.log2 den : Int) - 53) (-1074)
  let scaled := scaleDown num den q
  let q := if twoPow 53 ≤ scaled.1 / scaled.2 then q + 1 else q
  let scaled := scaleDown num den q
  min ((q + 1074).toNat * twoPow 52 + roundDiv scaled.1 scaled.2) (2047 * twoPow 52)

/-- The double nearest to `m * 10 ^ e`. Beyond the exponents at which every number is infinite or
    zero the power of ten is not computed. -/
def nearest (negative : Bool) (m : Nat) (e : Int) : Double :=
  let places : Int := (Nat.toDigits 10 m).length
  let size : Nat :=
    if m = 0 || places + e < -400 then 0
    else if 400 < places + e then 2047 * twoPow 52
    else if 0 ≤ e then nearestBits (m * tenPow e.toNat) 1
    else nearestBits m (tenPow (-e).toNat)
  ⟨UInt64.ofNat (if negative then size + twoPow 63 else size)⟩

/-! ## 3. Reading -/

/-- The double nearest to the digits `whole.fraction`. -/
def ofDigits (negative : Bool) (whole fraction : List Char) (e : Int) : Double :=
  nearest negative (digitsValue (whole ++ fraction)) (e - fraction.length)

/-- An optional sign in front of a text. -/
def splitSign : List Char → Bool × List Char
  | '-' :: rest => (true, rest)
  | '+' :: rest => (false, rest)
  | s => (false, s)

/-- An exponent that fills the rest of the text: nothing, or `e`, a sign and digits. -/
def readExponent? : List Char → Option Int
  | [] => some 0
  | c :: rest =>
    if c = 'e' || c = 'E' then
      let (negative, ds) := splitSign rest
      if ds.isEmpty || !ds.all Char.isDigit then none
      else some (if negative then -(digitsValue ds : Int) else digitsValue ds)
    else none

/-- The digits before and after an optional point, and what follows them. -/
def splitPoint (s : List Char) : List Char × List Char × List Char :=
  let whole := s.takeWhile Char.isDigit
  match s.dropWhile Char.isDigit with
  | '.' :: rest => (whole, rest.takeWhile Char.isDigit, rest.dropWhile Char.isDigit)
  | rest => (whole, [], rest)

/-- The double that a text spells: an optional sign, then `inf`, `infinity` or `nan` in any case, or
    digits with an optional point, at least one of them, and an optional exponent. -/
def read? (text : List Char) : Option Double :=
  let (negative, body) := splitSign text
  let signed (x : Double) : Double := if negative then x.neg else x
  let word := body.map Char.toLower
  if word = "inf".toList || word = "infinity".toList then some (signed infinity)
  else if word = "nan".toList then some (signed nan)
  else
    let (whole, fraction, rest) := splitPoint body
    if whole.isEmpty && fraction.isEmpty then none
    else (readExponent? rest).map (ofDigits negative whole fraction)

end Double

end EntityQuery
