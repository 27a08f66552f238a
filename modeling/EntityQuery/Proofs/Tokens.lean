import EntityQuery.Statement

/-!
Tokens of statements.

A statement is read from left to right. The longest token counts; a name ends at a quote that is not
doubled, and a blank separates.

* `Token` -- a token of a statement;
* `Lexer` -- what has been begun, with `Lexer.step` for one character and `Lexer.scan` for a text;
* `Token.lex` -- the tokens of a whole text;
* `Token.lex_append_of_settled`, `Token.lex_append_of_break` -- a text can be cut behind a piece
  that leaves nothing begun, and before a character that no token goes on with;
* `Token.lex_quoteName` -- **a quoted name is one token, whatever it holds**.
-/
namespace EntityQuery

/-! ## 1. Tokens -/

/-- A token of a statement. -/
inductive Token where
  | name (name : String)
  | word (letters : String)
  | placeholder
  | null
  | unary (op : Expr.UnaryOp)
  | binary (op : Expr.BinaryOp)
  | is
  | opening
  | closing
  | comma
  | star
  deriving DecidableEq

/-- Letters in a row: a keyword, or a word of its own. -/
def Token.ofWord : List Char → Token
  | ['N', 'O', 'T'] => .unary .not
  | ['N', 'U', 'L', 'L'] => .null
  | ['A', 'N', 'D'] => .binary .and
  | ['O', 'R'] => .binary .or
  | ['I', 'S'] => .is
  | letters => .word (String.ofList letters)

/-! ## 2. The machine -/

/-- What has been begun: nothing, a word, a sign that may go on, a name, or a name up to a quote
    that ends it or is the first half of a doubled one. -/
inductive Lexer where
  | idle
  | word (letters : List Char)
  | sign (op : Expr.BinaryOp)
  | quoted (name : List Char)
  | quote (name : List Char)
  deriving DecidableEq

namespace Lexer

/-- The characters of words. -/
def isWordLetter (c : Char) : Bool := c.isAlpha || c = '_'

/-- The token that has been begun, complete as it is. A name needs a closing quote. -/
def finish : Lexer → Option (List Token)
  | .idle => some []
  | .word letters => some [.ofWord letters]
  | .sign op => some [.binary op]
  | .quoted _ => none
  | .quote name => some [.name (String.ofList name)]

/-- The token that has been begun, one character longer. -/
def extend? : Lexer → Char → Option Lexer
  | .idle, _ => none
  | .word letters, c => if isWordLetter c then some (.word (letters ++ [c])) else none
  | .sign .less, c =>
    if c = '=' then some (.sign .lessEqual) else if c = '>' then some (.sign .notEqual) else none
  | .sign .greater, c => if c = '=' then some (.sign .greaterEqual) else none
  | .sign _, _ => none
  | .quoted name, c => if c = '"' then some (.quote name) else some (.quoted (name ++ [c]))
  | .quote name, c => if c = '"' then some (.quoted (name ++ ['"'])) else none

/-- A character that begins something, with the token that it is by itself. -/
def start : Char → Option (List Token × Lexer)
  | ' ' => some ([], .idle)
  | '?' => some ([.placeholder], .idle)
  | '-' => some ([.unary .negate], .idle)
  | '(' => some ([.opening], .idle)
  | ')' => some ([.closing], .idle)
  | ',' => some ([.comma], .idle)
  | '*' => some ([.star], .idle)
  | '=' => some ([], .sign .equal)
  | '<' => some ([], .sign .less)
  | '>' => some ([], .sign .greater)
  | '"' => some ([], .quoted [])
  | c => if isWordLetter c then some ([], .word [c]) else none

/-- One character: the tokens that it completes, and what has been begun then. -/
def step (l : Lexer) (c : Char) : Option (List Token × Lexer) :=
  match l.extend? c with
  | some next => some ([], next)
  | none => l.finish.bind fun done => (start c).map fun r => (done ++ r.1, r.2)

/-- Characters in turn. -/
def scan : Lexer → List Char → Option (List Token × Lexer)
  | l, [] => some ([], l)
  | l, c :: cs => (l.step c).bind fun r => (scan r.2 cs).map fun q => (r.1 ++ q.1, q.2)

theorem scan_append (l : Lexer) (s t : List Char) :
    l.scan (s ++ t) =
      (l.scan s).bind fun r => (scan r.2 t).map fun q => (r.1 ++ q.1, q.2) := by
  induction s generalizing l with
  | nil => simp [scan]
  | cons c s ih =>
    rw [List.cons_append, scan, scan]
    cases l.step c with
    | none => rfl
    | some r =>
      simp only [Option.bind_some, ih]
      cases scan r.2 s with
      | none => rfl
      | some q =>
        simp only [Option.bind_some, Option.map_some]
        cases scan q.2 t with
        | none => rfl
        | some p => simp only [Option.map_some, List.append_assoc]

/-! ## 3. Cuts -/

/-- Characters that no token but a name goes on with. -/
def isBreak (c : Char) : Bool := c = ' ' || c = '(' || c = ')' || c = ','

theorem isBreak_cases {c : Char} (h : isBreak c = true) : c = ' ' ∨ c = '(' ∨ c = ')' ∨ c = ',' := by
  simpa [isBreak, or_assoc] using h

/-- Outside a name a break ends what has been begun. -/
theorem extend?_of_isBreak {l : Lexer} {done : List Token} (h : l.finish = some done) {c : Char}
    (hc : isBreak c = true) : l.extend? c = none := by
  have hword : isWordLetter c = false := by
    rcases isBreak_cases hc with rfl | rfl | rfl | rfl <;> decide
  have hquote : c ≠ '"' := by
    rintro rfl
    cases hc
  have hequal : c ≠ '=' := by
    rintro rfl
    cases hc
  have hgreater : c ≠ '>' := by
    rintro rfl
    cases hc
  cases l with
  | idle => rfl
  | word letters => simp [extend?, hword]
  | sign op => cases op <;> simp [extend?, hequal, hgreater]
  | quoted name => cases h
  | quote name => simp [extend?, hquote]

/-- From a break on, a text is scanned as if nothing had been begun before it. -/
theorem scan_of_isBreak {l : Lexer} {done : List Token} (h : l.finish = some done) {c : Char}
    (hc : isBreak c = true) (cs : List Char) :
    l.scan (c :: cs) = (idle.scan (c :: cs)).map fun r => (done ++ r.1, r.2) := by
  have hstep : l.step c = (idle.step c).map fun r => (done ++ r.1, r.2) := by
    have hidle : idle.step c = start c := by
      show (start c).map (fun r => ([] ++ r.1, r.2)) = start c
      cases start c <;> rfl
    rw [hidle, step, extend?_of_isBreak h hc, h]
    rfl
  rw [scan, scan, hstep]
  cases idle.step c with
  | none => rfl
  | some r => cases hr : scan r.2 cs <;> simp [hr]

end Lexer

namespace Token

/-- The tokens of a text. There are no comments: `--` is two minus signs, also where a store takes
    it for the beginning of a comment. -/
def lex (s : List Char) : Option (List Token) :=
  (Lexer.idle.scan s).bind fun r => r.2.finish.map fun done => r.1 ++ done

/-- **A text can be cut behind a piece that leaves nothing begun.** -/
theorem lex_append_of_settled {s t : List Char} {ts us : List Token}
    (hs : Lexer.idle.scan s = some (ts, .idle)) (ht : lex t = some us) :
    lex (s ++ t) = some (ts ++ us) := by
  obtain ⟨r, hr, ht⟩ := Option.bind_eq_some_iff.mp ht
  obtain ⟨done, hdone, rfl⟩ := Option.map_eq_some_iff.mp ht
  unfold lex
  rw [Lexer.scan_append, hs, Option.bind_some, hr]
  simp [hdone]

/-- **A text can be cut before a break.** -/
theorem lex_append_of_break {s t : List Char} {c : Char} {ts us : List Token} (hs : lex s = some ts)
    (hc : Lexer.isBreak c = true) (ht : lex (c :: t) = some us) :
    lex (s ++ c :: t) = some (ts ++ us) := by
  obtain ⟨r, hr, hs⟩ := Option.bind_eq_some_iff.mp hs
  obtain ⟨begun, hbegun, rfl⟩ := Option.map_eq_some_iff.mp hs
  obtain ⟨q, hq, ht⟩ := Option.bind_eq_some_iff.mp ht
  obtain ⟨done, hdone, rfl⟩ := Option.map_eq_some_iff.mp ht
  unfold lex
  rw [Lexer.scan_append, hr, Option.bind_some, Lexer.scan_of_isBreak hbegun hc, hq]
  simp [hdone]

/-! ## 4. Names -/

theorem scan_doubled (begun name : List Char) :
    (Lexer.quoted begun).scan (name.flatMap fun c => if c = '"' then ['"', '"'] else [c]) =
      some ([], .quoted (begun ++ name)) := by
  induction name generalizing begun with
  | nil => simp [Lexer.scan]
  | cons c name ih =>
    rw [List.flatMap_cons]
    by_cases hc : c = '"'
    · subst hc
      simp [Lexer.scan, Lexer.step, Lexer.extend?, ih]
    · simp [hc, Lexer.scan, Lexer.step, Lexer.extend?, ih]

/-- **A quoted name is one token**, whatever quotes and blanks it holds. -/
theorem lex_quoteName (name : String) : lex (quoteName name).toList = some [.name name] := by
  have htext : (quoteName name).toList =
      '"' :: ((name.toList.flatMap fun c => if c = '"' then ['"', '"'] else [c]) ++ ['"']) := by
    simp [quoteName, String.toList_append]
  have hopen : Lexer.idle.step '"' = some ([], .quoted []) := rfl
  unfold lex
  rw [htext, Lexer.scan, hopen, Option.bind_some, Lexer.scan_append, scan_doubled]
  simp [Lexer.scan, Lexer.step, Lexer.extend?, Lexer.finish]

end Token

end EntityQuery
