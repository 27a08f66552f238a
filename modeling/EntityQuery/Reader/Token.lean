import EntityQuery.Reader.Basic
import EntityQuery.Text.Letter
import EntityQuery.Text.Numeral

/-!
The smallest readers: symbols and names, each after an optional gap.

* `Reader.symbol` -- the characters of a symbol;
* `Reader.name` -- a letter or underscore, then letters, numerals and underscores.
-/
namespace EntityQuery

open Text

/-- What is left of a text after the given characters at its front. -/
def stripChars? : List Char → List Char → Option (List Char)
  | [], s => some s
  | _ :: _, [] => none
  | c :: cs, d :: s => if c = d then stripChars? cs s else none

/-- A character that a name may start with. -/
def isNameStart (c : Char) : Bool := isLetter c || c == '_'

/-- A character that a name may go on with. -/
def isNamePart (c : Char) : Bool := isLetter c || isNumeral c || c == '_'

namespace Reader

/-- A gap, then the characters of a symbol. -/
def symbol (token : String) : Reader Unit := fun s =>
  let s := skipGap s
  match stripChars? token.toList s with
  | some rest => .ok () rest
  | none => .error ⟨s, .unexpected .symbol⟩

/-- A gap, then a name. -/
def name : Reader String := fun s =>
  match skipGap s with
  | c :: s =>
    if isNameStart c then
      .ok (String.ofList (c :: s.takeWhile isNamePart)) (s.dropWhile isNamePart)
    else .error ⟨c :: s, .unexpected .name⟩
  | [] => .error ⟨[], .unexpected .name⟩

/-- What stands between two symbols. -/
def between {α : Type} (opening : Reader Unit) (r : Reader α) (closing : Reader Unit) :
    Reader α := do
  opening
  let a ← r
  closing
  return a

end Reader

end EntityQuery
