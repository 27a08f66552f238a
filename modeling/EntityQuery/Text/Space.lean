/-!
Two kinds of blank characters, and what stands before the first other character of a text.

* `isGap` -- what may stand between two tokens of a query: space, tab, line feed, carriage return;
* `isWhite` -- Unicode's `White_Space` property, which is wider;
* `skipGap`, `skipWhite` -- the text from the first character that is not of the kind;
* `isWhite_of_isGap` -- a gap character is white.
-/
namespace EntityQuery.Text

/-- Space, tab, line feed or carriage return. -/
def isGap (c : Char) : Bool :=
  c == ' ' || c == '\t' || c == '\n' || c == '\r'

/-- Unicode's `White_Space` property. -/
def isWhite (c : Char) : Bool :=
  let n := c.toNat
  (9 ≤ n && n ≤ 13) || n == 0x20 || n == 0x85 || n == 0xA0 || n == 0x1680
    || (0x2000 ≤ n && n ≤ 0x200A) || n == 0x2028 || n == 0x2029 || n == 0x202F || n == 0x205F
    || n == 0x3000

theorem isWhite_of_isGap {c : Char} (h : isGap c = true) : isWhite c = true := by
  simp only [isGap, Bool.or_eq_true, beq_iff_eq] at h
  rcases h with ((rfl | rfl) | rfl) | rfl <;> rfl

/-- The text after its leading gap. -/
def skipGap (s : List Char) : List Char := s.dropWhile isGap

/-- The text after its leading white space. -/
def skipWhite (s : List Char) : List Char := s.dropWhile isWhite

theorem skipGap_suffix (s : List Char) : skipGap s <:+ s := List.dropWhile_suffix _

theorem skipWhite_suffix (s : List Char) : skipWhite s <:+ s := List.dropWhile_suffix _

end EntityQuery.Text
