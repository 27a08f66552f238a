import EntityQuery.Number.Double

/-!
The fewest decimal digits that read back as the same double.

A double `m * 2 ^ q` is the nearest one to every number of an interval around it; the ends belong
to it exactly if `m` is even. On the grid of the multiples of `10 ^ t` the only points worth a look
are the two next to the double. The grids are tried from coarse to fine, and the first with a point
in the interval has the fewest digits; of two points the nearer is taken.

* `Shortest.Interval` -- the interval, over one common denominator;
* `Shortest.leading` -- the power of ten of the first digit;
* `Double.shortest` -- the digits and the power of ten of the last of them.
-/
namespace EntityQuery

namespace Shortest

/-- What to do with a number half way between two grid points. -/
inductive Tie where
  | up
  | even
  deriving DecidableEq

/-- The numbers that round to one double: `low / den` to `high / den` around `mid / den`. -/
structure Interval where
  low : Nat
  mid : Nat
  high : Nat
  den : Nat
  closed : Bool

/-- The interval of `m * 2 ^ q`, in quarters of the last place. Below a power of two the next double
    is only half as far, except where the subnormal numbers begin. -/
def Interval.of (m : Nat) (q : Int) : Interval :=
  let down := if m = twoPow 52 && -1074 < q then 1 else 2
  let up := if 2 ≤ q then twoPow (q - 2).toNat else 1
  let den := if 2 ≤ q then 1 else twoPow (2 - q).toNat
  { low := (4 * m - down) * up, mid := 4 * m * up, high := (4 * m + 2) * up, den := den,
    closed := m % 2 == 0 }

/-- The interval with the unit `10 ^ t`. -/
def Interval.scale (i : Interval) (t : Int) : Interval :=
  if 0 ≤ t then { i with den := i.den * tenPow t.toNat }
  else
    let p := tenPow (-t).toNat
    { i with low := i.low * p, mid := i.mid * p, high := i.high * p }

/-- A grid point of an interval. -/
def Interval.has (i : Interval) (c : Nat) : Bool :=
  if i.closed then i.low ≤ c * i.den && c * i.den ≤ i.high
  else i.low < c * i.den && c * i.den < i.high

/-- The point of the grid of unit one in the interval that is nearest to its middle, if any. -/
def Interval.pick? (tie : Tie) (i : Interval) : Option Nat :=
  let c := i.mid / i.den
  let below := i.mid - c * i.den
  let above := (c + 1) * i.den - i.mid
  match i.has c, i.has (c + 1) with
  | true, true =>
    if below < above then some c
    else if above < below then some (c + 1)
    else match tie with
      | .up => some (c + 1)
      | .even => some (if c % 2 = 0 then c else c + 1)
  | true, false => some c
  | false, true => some (c + 1)
  | false, false => none

/-- The power of ten of the first digit of `mid / den`: an estimate by the binary length, mended by
    one where it is off. -/
def leading (i : Interval) : Int :=
  let estimate : Int := (((Nat.log2 i.mid : Int) - (Nat.log2 i.den : Int)) * 30103).fdiv 100000
  let atLeast (t : Int) : Bool :=
    let s := i.scale t
    s.den ≤ s.mid
  if atLeast (estimate + 1) then estimate + 1
  else if atLeast estimate then estimate
  else estimate - 1

/-- The first of the grids `10 ^ t`, `10 ^ (t - 1)`, … with a point in the interval. -/
def search (tie : Tie) (i : Interval) : Nat → Int → Nat × Int
  | 0, t => ((i.scale t).mid / (i.scale t).den, t)
  | n + 1, t =>
    match (i.scale t).pick? tie with
    | some c => (c, t)
    | none => search tie i n (t - 1)

/-- The digits without the zeros at their end. -/
def trim : Nat → Nat → Int → Nat × Int
  | 0, c, t => (c, t)
  | n + 1, c, t => if c % 10 = 0 && c ≠ 0 then trim n (c / 10) (t + 1) else (c, t)

end Shortest

/-- The fewest digits, as a number, that read back as the positive `m * 2 ^ q`, and the power of ten
    of the last of them. -/
def Double.shortest (tie : Shortest.Tie) (m : Nat) (q : Int) : Nat × Int :=
  let i := Shortest.Interval.of m q
  let (c, t) := Shortest.search tie i 17 (Shortest.leading i)
  Shortest.trim 20 c t

end EntityQuery
