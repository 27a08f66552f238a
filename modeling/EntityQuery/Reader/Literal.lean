import EntityQuery.Number.Power
import EntityQuery.Reader.Token
import EntityQuery.Term.Basic

/-!
Literals in queries: numbers, texts and single characters.

* `Reader.number` -- digits with an optional fraction and an optional suffix, which decides the
  type: `L` 64-bit integer, `m` decimal, `d` or `f` double. Without one a fraction makes a double,
  and digits alone the narrower of the two integer types that holds them;
* `Reader.quoted` -- a text between quotes, where a backslash escapes the next character.
-/
namespace EntityQuery

open Text

/-! ## 1. Numbers -/

/-- The 32-bit integer that digits spell, if there is one. -/
def int32OfDigits? (ds : List Char) : Option Int32 :=
  let n := digitsValue ds
  if n < twoPow 31 then some (Int32.ofNat n) else none

/-- The 64-bit integer that digits spell, if there is one. -/
def int64OfDigits? (ds : List Char) : Option Int64 :=
  let n := digitsValue ds
  if n < twoPow 63 then some (Int64.ofNat n) else none

/-- The digits of a number as they are written. -/
def numberText (whole : List Char) (fraction : Option (List Char)) : List Char :=
  match fraction with
  | some ds => whole ++ '.' :: ds
  | none => whole

/-- The literal that digits, an optional fraction and an optional suffix make. -/
def Literal.ofNumber? (whole : List Char) (fraction : Option (List Char))
    (suffix : Option Char) : Option Literal :=
  let double : Literal := .double (Double.ofDigits false whole (fraction.getD []) 0)
  match suffix, fraction with
  | some 'l', none => (int64OfDigits? whole).map .int64
  | some 'm', _ => (Decimal.read? (numberText whole fraction)).map .decimal
  | some 'd', _ => some double
  | some 'f', _ => some double
  | none, some _ => some double
  | none, none => (int32OfDigits? whole).map .int32 <|> (int64OfDigits? whole).map .int64
  | _, _ => none

namespace Reader

/-- A point and digits after it, if both are there. -/
def fractionDigits (s : List Char) : Option (List Char) × List Char :=
  match s with
  | '.' :: rest =>
    if (rest.takeWhile Char.isDigit).isEmpty then (none, s)
    else (some (rest.takeWhile Char.isDigit), rest.dropWhile Char.isDigit)
  | _ => (none, s)

/-- A suffix of a number, in lower case. -/
def numberSuffix (s : List Char) : Option Char × List Char :=
  match s with
  | c :: rest => if c ∈ "LlMmDdFf".toList then (some c.toLower, rest) else (none, s)
  | [] => (none, s)

/-- A gap, then a number. -/
def number : Reader Term := fun s =>
  let s := skipGap s
  let whole := s.takeWhile Char.isDigit
  if whole.isEmpty then .error ⟨s, .unexpected .digit⟩
  else
    let (fraction, rest) := fractionDigits (s.dropWhile Char.isDigit)
    let (suffix, rest) := numberSuffix rest
    match Literal.ofNumber? whole fraction suffix with
    | some literal => .ok (.ofLiteral literal) rest
    | none => .failure ⟨s, .invalidNumber (String.ofList (numberText whole fraction))⟩

/-! ## 2. Texts and characters -/

/-- The character that a backslash and a character stand for. -/
def unescape (c : Char) : Char :=
  if c = 'n' then '\n'
  else if c = 't' then '\t'
  else if c = 'r' then '\r'
  else if c = '0' then '\x00'
  else c

/-- The characters up to the closing quote, and what follows it. -/
def quotedBody (quote : Char) : List Char → Option (List Char × List Char)
  | [] => none
  | c :: rest =>
    if c = quote then some ([], rest)
    else if c = '\\' then
      match rest with
      | [] => none
      | d :: rest => (quotedBody quote rest).map fun (cs, r) => (unescape d :: cs, r)
    else (quotedBody quote rest).map fun (cs, r) => (c :: cs, r)

/-- A gap, then a text between quotes. -/
def quoted (quote : Char) : Reader (List Char) := fun s =>
  let s := skipGap s
  match s with
  | c :: rest =>
    if c = quote then
      match quotedBody quote rest with
      | some (cs, rest) => .ok cs rest
      | none => .failure ⟨s, .unterminated⟩
    else .error ⟨s, .missing quote⟩
  | [] => .error ⟨s, .missing quote⟩

/-- A text in double quotes. -/
def stringLiteral : Reader Term := do
  let cs ← quoted '"'
  return .ofLiteral (.string (String.ofList cs))

/-- One character in single quotes. -/
def charLiteral : Reader Term := do
  let start ← here
  match ← quoted '\x27' with
  | [c] => return .ofLiteral (.char c)
  | _ => failAt (skipWhite start) .notOneCharacter

end Reader

end EntityQuery
