/-!
Scanning a text from its front: a scan reads something and leaves the rest, or it fails.

* `Scan` -- scans, one after another by `do`, with a second choice by `<|>`;
* `Scan.char`, `Scan.one`, `Scan.chars`, `Scan.run` -- characters;
* `Scan.many`, `Scan.separated` -- as many items as there are;
* `Scan.whole?` -- what a scan reads if it leaves nothing.
-/
namespace EntityQuery

/-- What is read at the front of a text, and the rest of the text. -/
abbrev Scan (α : Type) := StateT (List Char) Option α

namespace Scan

variable {α : Type}

/-- One character of a class. -/
def one (p : Char → Bool) : Scan Char := fun s =>
  match s with
  | c :: rest => if p c then some (c, rest) else none
  | [] => none

/-- The given character. -/
def char (c : Char) : Scan Unit := do
  discard (one (· = c))

/-- The given characters in turn. -/
def chars : List Char → Scan Unit
  | [] => return
  | c :: cs => do
    char c
    chars cs

/-- The characters of a class up to the first of another; there may be none. -/
def run (p : Char → Bool) : Scan (List Char) := fun s => some (s.takeWhile p, s.dropWhile p)

/-- Is the end reached? -/
def ended : Scan Bool := fun s => some (s.isEmpty, s)

/-- Items up to the first place without one, at most so many. -/
def atMost (item : Scan α) : Nat → Scan (List α)
  | 0 => return []
  | n + 1 => do
    match ← optional item with
    | none => return []
    | some a => return a :: (← atMost item n)

/-- Items up to the first place without one. An item takes a character or more, so there are never
    more of them than characters. -/
def many (item : Scan α) : Scan (List α) := fun s => atMost item s.length s

/-- One item or more with something between them. -/
def separated₁ (separator : Scan Unit) (item : Scan α) : Scan (List α) := do
  let first ← item
  let more ← many (separator *> item)
  return first :: more

/-- Items with something between them; there may be none. -/
def separated (separator : Scan Unit) (item : Scan α) : Scan (List α) := do
  return (← optional (separated₁ separator item)).getD []

/-- What a scan reads if it leaves nothing. -/
def whole? (scan : Scan α) (s : List Char) : Option α :=
  match scan s with
  | some (a, []) => some a
  | _ => none

end Scan

end EntityQuery
