/-!
Decimal digits of a fixed width and the numbers that runs of digits spell.

* `zeroPadded` -- a number with zeros in front up to a width;
* `takeNumber?` -- the number at the front of a text, of at most so many digits.
-/
namespace EntityQuery.Text

/-- The digits of a number, with zeros in front to make at least `width` of them. -/
def zeroPadded (width n : Nat) : String :=
  let ds := Nat.toDigits 10 n
  String.ofList (List.replicate (width - ds.length) '0' ++ ds)

/-- The number that decimal digits spell. -/
def digitsValue (ds : List Char) : Nat :=
  ds.foldl (fun n c => 10 * n + (c.toNat - '0'.toNat)) 0

/-- The number of one to `limit` digits at the front of a text, and the rest of the text. -/
def takeNumber? (limit : Nat) (s : List Char) : Option (Nat × List Char) :=
  let ds := (s.take limit).takeWhile Char.isDigit
  if ds.isEmpty then none else some (digitsValue ds, s.drop ds.length)

end EntityQuery.Text
