import Lox.Token

/-!
The characters of source text: blanks, those of words, and those of operators.
-/

namespace Lox

/-- space, tab, carriage return, line feed -/
def isBlank (c : Char) : Bool := c = ' ' || c = '\t' || c = '\r' || c = '\n'

/-- an ASCII letter or the underscore -/
def isWordStart (c : Char) : Bool := c.isAlpha || c = '_'

/-- an ASCII letter, the underscore or an ASCII digit -/
def isWordPart (c : Char) : Bool := isWordStart c || c.isDigit

/-- the operators of one character -/
def operator? : Char → Option TokenKind
  | '(' => some .leftParen
  | ')' => some .rightParen
  | '\x7b' => some .leftBrace
  | '\x7d' => some .rightBrace
  | ',' => some .comma
  | '.' => some .dot
  | '-' => some .minus
  | '+' => some .plus
  | ';' => some .semicolon
  | '/' => some .slash
  | '*' => some .star
  | '!' => some .bang
  | '=' => some .equal
  | '>' => some .greater
  | '<' => some .less
  | _ => none

/-- the operators of two characters, by their first; the second is the equals sign -/
def operatorEqual? : Char → Option TokenKind
  | '!' => some .bangEqual
  | '=' => some .equalEqual
  | '>' => some .greaterEqual
  | '<' => some .lessEqual
  | _ => none

end Lox
