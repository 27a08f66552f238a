/-!
Powers of the two bases in which numbers are kept and written.

* `twoPow` -- a power of two, the unit of a double and the bound of a fixed width;
* `tenPow` -- a power of ten, the unit of decimal digits.
-/
namespace EntityQuery

/-- A power of two. -/
abbrev twoPow (n : Nat) : Nat := Nat.pow 2 n

/-- A power of ten. -/
abbrev tenPow (n : Nat) : Nat := Nat.pow 10 n

end EntityQuery
