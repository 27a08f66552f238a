import EntityQuery.Number.DateTime
import EntityQuery.Text.Scan
import EntityQuery.Toml.Value

/-!
The single values of TOML documents, blanks and comments.

* `blanks`, `lineEnd`, `comment`, `layout` -- what stands between values;
* `basicString`, `literalString`, `string` -- strings, the last also over several lines;
* `integer`, `decimalFloat`, `namedFloat`, `moment` -- numbers, dates and times;
* `scalar` -- any of them.
-/
namespace EntityQuery.Toml

open Scan

/-! ## 1. Between values -/

/-- Characters that may stand in a line: all but control characters, the tab excepted. -/
def isPrintable (c : Char) : Bool := c = '\t' || (c.toNat ≥ 0x20 && c.toNat ≠ 0x7F)

/-- Spaces and tabs. -/
def isBlank (c : Char) : Bool := c = ' ' || c = '\t'

/-- Spaces and tabs, if there are any. -/
def blanks : Scan Unit := discard (run isBlank)

/-- A line feed, with or without a carriage return before it. -/
def newline : Scan Unit := do
  discard (optional (char '\r'))
  char '\n'

/-- The end of a line or of the text. -/
def lineEnd : Scan Unit := do
  if ← ended then return else newline

/-- A comment up to the end of its line. -/
def comment : Scan Unit := do
  char '#'
  discard (run isPrintable)

/-- Blanks, comments and new lines, if there are any. -/
def layout : Scan Unit := do
  discard (many (discard (one isBlank) <|> (comment *> newline) <|> newline))

/-! ## 2. Strings -/

/-- A hexadecimal digit. -/
def isHex (c : Char) : Bool :=
  c.isDigit || ('a' ≤ c && c ≤ 'f') || ('A' ≤ c && c ≤ 'F')

/-- The value of a digit in any base up to sixteen. -/
def digitValue (c : Char) : Nat :=
  if c.isDigit then c.toNat - '0'.toNat
  else if 'a' ≤ c && c ≤ 'f' then c.toNat - 'a'.toNat + 10
  else c.toNat - 'A'.toNat + 10

/-- The number that digits spell in a base. -/
def digitsIn (base : Nat) (ds : List Char) : Nat :=
  ds.foldl (fun n c => base * n + digitValue c) 0

/-- The character with a number of so many hexadecimal digits. -/
def codePoint (width : Nat) : Scan Char := fun s =>
  let ds := s.take width
  let n := digitsIn 16 ds
  if ds.length = width && ds.all isHex && n.isValidChar then some (Char.ofNat n, s.drop width)
  else none

/-- A backslash and what it stands for. -/
def escaped : Scan Char := do
  char '\\'
  match ← one fun _ => true with
  | 'b' => return '\x08'
  | 't' => return '\t'
  | 'n' => return '\n'
  | 'f' => return '\x0c'
  | 'r' => return '\r'
  | '"' => return '"'
  | '\\' => return '\\'
  | 'u' => codePoint 4
  | 'U' => codePoint 8
  | _ => failure

/-- A character that stands for itself between quotes that read escapes. -/
def plainBasic : Scan Char := one fun c => isPrintable c && c ≠ '"' && c ≠ '\\'

/-- A character that stands for itself between quotes that read no escapes. -/
def plainLiteral : Scan Char := one fun c => isPrintable c && c ≠ '\x27'

/-- A string in double quotes on one line. -/
def basicString : Scan String := do
  char '"'
  let cs ← many (plainBasic <|> escaped)
  char '"'
  return .ofList cs

/-- A string in single quotes on one line. -/
def literalString : Scan String := do
  char '\x27'
  let cs ← many plainLiteral
  char '\x27'
  return .ofList cs

/-- A backslash at the end of a line stands for nothing, and so do the blanks and line ends after
    it. -/
def foldedLine : Scan (List Char) := do
  char '\\'
  blanks
  newline
  discard (many (discard (one isBlank) <|> newline))
  return []

/-- A line end inside a string. -/
def brokenLine : Scan (List Char) := do
  newline
  return ['\n']

/-- One or two quotes in a row, and something after them that is no quote. -/
def innerQuotes (quote : Char) (content : Scan (List Char)) : Scan (List Char) := do
  char quote
  let second ← optional (char quote)
  let cs ← content
  return quote :: (second.toList.map fun _ => quote) ++ cs

/-- A string over several lines in three quotes. A line end right at the start is passed over, and
    up to two quotes may stand before the closing three. -/
def longString (quote : Char) (content : Scan (List Char)) : Scan String := do
  chars [quote, quote, quote]
  discard (optional newline)
  let pieces ← many (content <|> innerQuotes quote content)
  chars [quote, quote, quote]
  let fourth ← optional (char quote)
  let fifth ← optional (char quote)
  let last := (fourth.toList ++ fifth.toList).map fun _ => quote
  return .ofList (pieces.flatten ++ last)

/-- What a string over several lines in double quotes is made of. -/
def basicContent : Scan (List Char) :=
  ((fun c => [c]) <$> plainBasic) <|> foldedLine <|> ((fun c => [c]) <$> escaped) <|> brokenLine

/-- What a string over several lines in single quotes is made of. -/
def literalContent : Scan (List Char) := ((fun c => [c]) <$> plainLiteral) <|> brokenLine

/-- A string of any kind. -/
def string : Scan String :=
  longString '"' basicContent <|> basicString <|> longString '\x27' literalContent
    <|> literalString

/-! ## 3. Numbers -/

/-- Digits of a class, with single underscores between them. -/
def digitRun (p : Char → Bool) : Scan (List Char) := do
  let first ← one p
  let more ← many (optional (char '_') *> one p)
  return first :: more

/-- A sign, if there is one; is it a minus? -/
def sign : Scan Bool := do
  return (← optional (one fun c => c = '+' || c = '-')) = some '-'

/-- Decimal digits without a zero in front. -/
def wholePart : Scan (List Char) := do
  match ← optional (char '0') with
  | some _ => return ['0']
  | none => digitRun Char.isDigit

/-- An exponent with its mark. -/
def exponent : Scan Int := do
  discard (one fun c => c = 'e' || c = 'E')
  let negative ← sign
  let n : Nat := digitsIn 10 (← digitRun Char.isDigit)
  return if negative then -(n : Int) else n

/-- A number with a fraction, an exponent or both; one too large to be held is no number. -/
def decimalFloat : Scan Double := do
  let negative ← sign
  let whole ← wholePart
  let fraction ← optional (char '.' *> digitRun Char.isDigit)
  let e ← optional exponent
  if fraction.isNone && e.isNone then failure
  let x := Double.ofDigits negative whole (fraction.getD []) (e.getD 0)
  if x = .infinity then failure else return x

/-- The infinities and what is not a number, by name. -/
def namedFloat : Scan Double := do
  let negative ← sign
  let x ← (chars ['i', 'n', 'f'] *> pure Double.infinity)
    <|> (chars ['n', 'a', 'n'] *> pure Double.nan)
  return if negative then x.neg else x

/-- An integer of 64 bits, or nothing. -/
def bounded (n : Int) : Scan Int :=
  if Int64.minValue.toInt ≤ n && n ≤ Int64.maxValue.toInt then return n else failure

/-- An integer in a base other than ten, after its mark. -/
def integerIn (base : Nat) (mark : Char) (p : Char → Bool) : Scan Int := do
  chars ['0', mark]
  bounded (digitsIn base (← digitRun p))

/-- An integer in base ten. -/
def decimalInteger : Scan Int := do
  let negative ← sign
  let n : Nat := digitsIn 10 (← wholePart)
  bounded (if negative then -(n : Int) else n)

/-- An integer in any base. -/
def integer : Scan Int :=
  integerIn 16 'x' isHex <|> integerIn 8 'o' (fun c => '0' ≤ c && c ≤ '7')
    <|> integerIn 2 'b' (fun c => c = '0' || c = '1') <|> decimalInteger

/-! ## 4. Dates and times -/

/-- A number of exactly so many digits, between bounds. -/
def fixed (width low high : Nat) : Scan Nat := fun s =>
  let ds := s.take width
  let n := digitsIn 10 ds
  if ds.length = width && ds.all Char.isDigit && low ≤ n && n ≤ high then some (n, s.drop width)
  else none

/-- A date that exists. -/
def date : Scan Date := do
  let year ← fixed 4 0 9999
  char '-'
  let month ← fixed 2 1 12
  char '-'
  let day ← fixed 2 1 (DateTime.daysIn year month)
  return { year, month, day }

/-- A time of day, with a leap second at most. -/
def time : Scan Time := do
  let hour ← fixed 2 0 23
  char ':'
  let minute ← fixed 2 0 59
  char ':'
  let second ← fixed 2 0 60
  let first ← optional (char '.' *> one Char.isDigit)
  match first with
  | none => return { hour, minute, second }
  | some c => return { hour, minute, second, fraction := c :: (← run Char.isDigit) }

/-- The offset from universal time in minutes. -/
def offset : Scan Int := do
  match ← one fun c => c = 'Z' || c = 'z' || c = '+' || c = '-' with
  | '+' => amount
  | '-' => return -(← amount)
  | _ => return 0
where
  /-- Hours and minutes. -/
  amount : Scan Int := do
    let hour ← fixed 2 0 23
    char ':'
    let minute ← fixed 2 0 59
    return hour * 60 + minute

/-- A date, a time, or both. -/
def moment : Scan Moment :=
  (do
    let d ← date
    let t ← optional do
      discard (one fun c => c = 'T' || c = 't' || c = ' ')
      let t ← time
      let o ← optional offset
      return (t, o)
    match t with
    | some (t, o) => return .dateTime d t o
    | none => return .date d)
  <|> Moment.time <$> time

/-! ## 5. Any of them -/

/-- A single value. -/
def scalar : Scan Value :=
  Value.string <$> string
    <|> Value.moment <$> moment
    <|> Value.float <$> decimalFloat
    <|> Value.float <$> namedFloat
    <|> Value.integer <$> integer
    <|> (chars ['t', 'r', 'u', 'e'] *> pure (Value.boolean true))
    <|> (chars ['f', 'a', 'l', 's', 'e'] *> pure (Value.boolean false))

end EntityQuery.Toml
