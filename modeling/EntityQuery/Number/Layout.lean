import EntityQuery.Number.Shortest

/-!
How a double is laid out as text.

* `Layout` -- the choices of a format: where positional writing ends, whether a whole number keeps
  a fraction, whether a positive exponent has a sign, which way a tie of two shortest texts goes;
* `Layout.write` -- the text of a double under a layout.
-/
namespace EntityQuery

/-- The choices of a number format. With the bounds `(lo, hi)` a number is written positionally if
    the power of ten of its first digit is from `lo` to `hi`, and with an exponent otherwise;
    without bounds every number is written positionally. -/
structure Layout where
  bounds : Option (Int × Int)
  keepFraction : Bool
  signExponent : Bool
  tie : Shortest.Tie

namespace Layout

/-- A fraction in front of which nothing stands but a zero. -/
def small (digits : String) (zeros : Nat) : String :=
  "0." ++ String.ofList (List.replicate zeros '0') ++ digits

/-- Digits with a point after the first `n` of them. -/
def pointed (digits : String) (n : Nat) : String :=
  String.ofList (digits.toList.take n) ++ "." ++ String.ofList (digits.toList.drop n)

/-- Digits written positionally; the first has the power of ten `e`. -/
def positional (layout : Layout) (digits : String) (e : Int) : String :=
  let n := digits.length
  if e < 0 then small digits (-e - 1).toNat
  else if e.toNat + 1 < n then pointed digits (e.toNat + 1)
  else
    digits ++ String.ofList (List.replicate (e.toNat + 1 - n) '0')
      ++ (if layout.keepFraction then ".0" else "")

/-- The exponent `e` without zeros in front: a negative one has its sign, any other only where the
    layout asks for it. -/
def exponent (layout : Layout) (e : Int) : String :=
  (if layout.signExponent && 0 ≤ e then "e+" else "e") ++ toString e

/-- Digits written with an exponent; the first has the power of ten `e`. -/
def scientific (layout : Layout) (digits : String) (e : Int) : String :=
  (if digits.length = 1 then digits else pointed digits 1) ++ layout.exponent e

/-- The text of a positive number, given by its shortest digits. -/
def writeDigits (layout : Layout) (c : Nat) (t : Int) : String :=
  let digits := toString c
  let e := t + digits.length - 1
  match layout.bounds with
  | none => layout.positional digits e
  | some (lo, hi) =>
    if lo ≤ e && e ≤ hi then layout.positional digits e else layout.scientific digits e

/-- The text of a double. -/
def write (layout : Layout) (x : Double) : String :=
  match x.view with
  | .notANumber => "NaN"
  | .infinite negative => if negative then "-inf" else "inf"
  | .finite negative m q =>
    let body :=
      if m = 0 then (if layout.keepFraction then "0.0" else "0")
      else
        let (c, t) := Double.shortest layout.tie m q
        layout.writeDigits c t
    if negative then "-" ++ body else body

/-- All digits positionally and no fraction on a whole number: `1`, `0.0000001`. -/
def plain : Layout :=
  { bounds := none, keepFraction := false, signExponent := false, tie := .up }

/-- A number is recognisable as a floating point number: it has a fraction or an exponent. The
    exponent is written below `10 ^ -4` and from `10 ^ 16` on. -/
def marked : Layout :=
  { bounds := some (-4, 15), keepFraction := true, signExponent := false, tie := .up }

/-- The numbers of JSON documents: an exponent below `10 ^ -5` and, with a plus sign, from `10 ^ 16`
    on. -/
def json : Layout :=
  { bounds := some (-5, 15), keepFraction := true, signExponent := true, tie := .even }

/-! ## The three forms side by side -/

example : plain.write ⟨0x3FF0000000000000⟩ = "1" ∧ marked.write ⟨0x3FF0000000000000⟩ = "1.0"
    ∧ json.write ⟨0x3FF0000000000000⟩ = "1.0" := by decide +kernel

example : plain.write ⟨0x4341C37937E08000⟩ = "10000000000000000"
    ∧ marked.write ⟨0x4341C37937E08000⟩ = "1e16"
    ∧ json.write ⟨0x4341C37937E08000⟩ = "1e+16" := by decide +kernel

example : plain.write ⟨0x3EE4F8B588E368F1⟩ = "0.00001"
    ∧ marked.write ⟨0x3EE4F8B588E368F1⟩ = "1e-5"
    ∧ json.write ⟨0x3EE4F8B588E368F1⟩ = "0.00001" := by decide +kernel

example : marked.write ⟨0x3EB0C6F7A0B5ED8D⟩ = "1e-6"
    ∧ json.write ⟨0x3EB0C6F7A0B5ED8D⟩ = "1e-6" := by decide +kernel

example : plain.write ⟨0x8000000000000000⟩ = "-0" ∧ marked.write ⟨0x8000000000000000⟩ = "-0.0" := by
  decide +kernel

end Layout

end EntityQuery
