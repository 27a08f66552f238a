/-!
Sets of characters given as ranges of code points.

* `Range.holds` -- a code point lies in one of the ranges of a list;
* `Range.ascending` -- the ranges stand in order, with a gap between any two;
* `Range.count` -- how many code points the ranges of such a list have.
-/
namespace EntityQuery.Text

/-- One of the ranges, ends included, has the code point. -/
def Range.holds (ranges : List (Nat × Nat)) (n : Nat) : Bool :=
  ranges.any fun r => r.1 ≤ n && n ≤ r.2

/-- No range is empty, and each ends at least two before the next begins: none could be joined with
    its neighbour. -/
def Range.ascending : List (Nat × Nat) → Bool
  | [] => true
  | [r] => r.1 ≤ r.2
  | r :: s :: rest => r.1 ≤ r.2 && r.2 + 1 < s.1 && Range.ascending (s :: rest)

/-- The number of code points in ranges that do not overlap. -/
def Range.count : List (Nat × Nat) → Nat
  | [] => 0
  | r :: rest => (r.2 + 1 - r.1) + Range.count rest

end EntityQuery.Text
