import Lox.Diagnostic
import Lox.Fault
import Lox.Token.CharClass

/-!
The tokens of a source text, read from left to right. A reader is

* `chars`: the characters of the text,
* `start`, `position`: where the token it reads starts, and the next character,
* `line`: the line of the next character,
* `tokens`, `errors`: what it has read so far.

A reader looks one or two characters ahead, sees a zero character where there are none, and takes characters out of the
text with a check.
-/

namespace Lox

/-- A reader of source text. -/
structure Reader where
  chars : Array Char
  start : Nat
  position : Nat
  line : Nat
  tokens : Array Token
  errors : Array SyntaxError

namespace Reader

/-! ## Characters -/

/-- the reader of a text before its first character -/
def ofText (text : List Char) : Reader := ⟨text.toArray, 0, 0, 1, #[], #[]⟩

/-- No characters are left. -/
def atEnd (r : Reader) : Bool := r.chars.size ≤ r.position

/-- the next character -/
def peek (r : Reader) : Char := r.chars.getD r.position '\x00'

/-- the character after the next -/
def peekNext (r : Reader) : Char := r.chars.getD (r.position + 1) '\x00'

/-- Take the next character. -/
def next (r : Reader) : Except OutOfRange (Char × Reader) := do
  let c ← Range.item r.chars r.position
  pure (c, { r with position := r.position + 1 })

/-- Go past the next character. -/
def advance (r : Reader) : Except OutOfRange Reader := do
  let (_, r) ← r.next
  pure r

/-- Go past the next character, and to the next line if it ends one. -/
def advanceLine (r : Reader) : Except OutOfRange Reader :=
  { r with line := if r.peek = '\n' then r.line + 1 else r.line }.advance

/-- Go past the next character if it is the one asked for. -/
def advanceIf (asked : Char) (r : Reader) : Bool × Reader :=
  if r.peek = asked && !r.atEnd then (true, { r with position := r.position + 1 }) else (false, r)

/-- Take a step as long as a test holds, at most `n` times. -/
def stepWhile (test : Reader → Bool) (step : Reader → Except OutOfRange Reader) :
    Nat → Reader → Except OutOfRange Reader
  | 0, r => pure r
  | n + 1, r => if test r then do stepWhile test step n (← step r) else pure r

/-- how many characters are left -/
def left (r : Reader) : Nat := r.chars.size - r.position

/-- Go past the digits that come next. -/
def advanceDigits (r : Reader) : Except OutOfRange Reader := stepWhile (·.peek.isDigit) advance r.left r

/-- Go past a point and the digits behind it, if there is a digit behind it. -/
def advanceFraction (r : Reader) : Except OutOfRange Reader :=
  if r.peek = '.' && r.peekNext.isDigit then do (← r.advance).advanceDigits else pure r

/-! ## Tokens -/

/-- the characters from the start of the token on -/
def lexeme (r : Reader) : Except OutOfRange (List Char) := Range.slice r.chars r.start r.position

/-- Add a token with the characters from its start on. -/
def add (kind : TokenKind) (literal : Option Value) (line : Nat) (r : Reader) : Except OutOfRange Reader := do
  let lexeme ← r.lexeme
  pure { r with tokens := r.tokens.push ⟨kind, String.ofList lexeme, literal, line⟩ }

/-- Add a token without a literal, on the current line. -/
def addPlain (kind : TokenKind) (r : Reader) : Except OutOfRange Reader := r.add kind none r.line

/-- Report an error on a line. -/
def report (line : Nat) (message : String) (r : Reader) : Reader :=
  { r with errors := r.errors.push ⟨line, "", message⟩ }

/-- the rest of a comment, up to the end of the line -/
def comment (r : Reader) : Except OutOfRange Reader :=
  stepWhile (fun r => r.peek ≠ '\n' && !r.atEnd) advance r.left r

/-- the rest of a string; an error if the text ends before it -/
def string (r : Reader) : Except OutOfRange Reader := do
  let line := r.line
  let r ← stepWhile (fun r => r.peek ≠ '"' && !r.atEnd) advanceLine r.left r
  if r.atEnd then pure (r.report line "Unterminated string.")
  else do
    let r ← r.advance
    let inside ← Range.slice r.chars (r.start + 1) (r.position - 1)
    r.add .string (some (.string (String.ofList inside))) line

/-- the rest of a numeral; a point belongs to it if a digit follows -/
def number (r : Reader) : Except OutOfRange Reader := do
  let r ← (← r.advanceDigits).advanceFraction
  let value := (Numeral.value? (← r.lexeme)).getD Binary64.nan
  r.add .number (some (.number value)) r.line

/-- the rest of a word -/
def word (r : Reader) : Except OutOfRange Reader := do
  let r ← stepWhile (isWordPart ·.peek) advance r.left r
  r.addPlain (.ofWord (String.ofList (← r.lexeme)))

/-- an operator, given its kind alone and its kind with an equals sign, if it has one -/
def operator (kind : TokenKind) (withEqual? : Option TokenKind) (r : Reader) : Except OutOfRange Reader :=
  match withEqual? with
  | none => r.addPlain kind
  | some withEqual =>
    let (found, r) := r.advanceIf '='
    r.addPlain (if found then withEqual else kind)

/-- the next token, blank or comment, or the error of a character that starts none of them -/
def token (r : Reader) : Except OutOfRange Reader := do
  let (c, r) ← r.next
  match operator? c with
  | some .slash =>
    let (found, r) := r.advanceIf '/'
    if found then r.comment else r.addPlain .slash
  | some kind => r.operator kind (operatorEqual? c)
  | none =>
    if c = '\n' then pure { r with line := r.line + 1 }
    else if isBlank c then pure r
    else if c = '"' then r.string
    else if c.isDigit then r.number
    else if isWordStart c then r.word
    else pure (r.report r.line "Unexpected character.")

/-- all tokens, of which there are at most `n` -/
def all : Nat → Reader → Except OutOfRange Reader
  | 0, r => pure r
  | n + 1, r => if r.atEnd then pure r else do all n (← { r with start := r.position }.token)

end Reader

/-- What scanning a source text gives: its tokens, the end mark last, its lexical errors, and the fault it ended in, if any. -/
structure Scan where
  tokens : List Token
  errors : List SyntaxError
  fault : Option Fault

/-- the tokens and lexical errors of a source text -/
def scan (source : String) : Scan :=
  let r := Reader.ofText source.toList
  match r.all r.chars.size with
  | .ok r => ⟨r.tokens.toList ++ [Token.endOn r.line], r.errors.toList, none⟩
  | .error request => ⟨[], [], some (.outOfRange request)⟩

end Lox
