import Lox.Value

/-!
Tokens. A token is

* `kind`: what it is to the grammar,
* `lexeme`: the characters it was read from, quotes included,
* `literal`: the value it denotes, if it is a number or a string,
* `line`: the line it starts on, the first being `1`.

The end of the source is a token too, of kind `endMark` and without characters.
-/

namespace Lox

/-- The kinds of tokens. -/
inductive TokenKind where
  | leftParen | rightParen | leftBrace | rightBrace
  | comma | dot | minus | plus | semicolon | slash | star
  | bang | bangEqual | equal | equalEqual | greater | greaterEqual | less | lessEqual
  | identifier | string | number
  | kwAnd | kwClass | kwElse | kwFalse | kwFor | kwFun | kwIf | kwNil
  | kwOr | kwPrint | kwReturn | kwSuper | kwThis | kwTrue | kwVar | kwWhile
  | endMark
deriving DecidableEq

namespace TokenKind

/-- the name of a kind in messages -/
def name : TokenKind → String
  | leftParen => "LeftParen"
  | rightParen => "RightParen"
  | leftBrace => "LeftBrace"
  | rightBrace => "RightBrace"
  | comma => "Comma"
  | dot => "Dot"
  | minus => "Minus"
  | plus => "Plus"
  | semicolon => "Semicolon"
  | slash => "Slash"
  | star => "Star"
  | bang => "Bang"
  | bangEqual => "BangEqual"
  | equal => "Equal"
  | equalEqual => "EqualEqual"
  | greater => "Greater"
  | greaterEqual => "GreaterEqual"
  | less => "Less"
  | lessEqual => "LessEqual"
  | identifier => "Identifier"
  | string => "String"
  | number => "Number"
  | kwAnd => "And"
  | kwClass => "Class"
  | kwElse => "Else"
  | kwFalse => "False"
  | kwFor => "For"
  | kwFun => "Fun"
  | kwIf => "If"
  | kwNil => "Nil"
  | kwOr => "Or"
  | kwPrint => "Print"
  | kwReturn => "Return"
  | kwSuper => "Super"
  | kwThis => "This"
  | kwTrue => "True"
  | kwVar => "Var"
  | kwWhile => "While"
  | endMark => "Eof"

/-- the kinds, each once -/
def all : List TokenKind :=
  [leftParen, rightParen, leftBrace, rightBrace, comma, dot, minus, plus, semicolon, slash, star, bang, bangEqual,
    equal, equalEqual, greater, greaterEqual, less, lessEqual, identifier, string, number, kwAnd, kwClass, kwElse,
    kwFalse, kwFor, kwFun, kwIf, kwNil, kwOr, kwPrint, kwReturn, kwSuper, kwThis, kwTrue, kwVar, kwWhile, endMark]

/-- the kind with a given name -/
def ofName? (name : String) : Option TokenKind := all.find? (·.name == name)

/-- the reserved words and their kinds -/
def reserved : List (String × TokenKind) :=
  [("and", kwAnd), ("class", kwClass), ("else", kwElse), ("false", kwFalse), ("for", kwFor), ("fun", kwFun),
    ("if", kwIf), ("nil", kwNil), ("or", kwOr), ("print", kwPrint), ("return", kwReturn), ("super", kwSuper),
    ("this", kwThis), ("true", kwTrue), ("var", kwVar), ("while", kwWhile)]

/-- the kind of a word: reserved, or an identifier -/
def ofWord (word : String) : TokenKind := (reserved.lookup word).getD identifier

theorem mem_all (k : TokenKind) : k ∈ all := by cases k <;> decide

/-- A kind is found by its name, so no two kinds share one. -/
theorem ofName?_name (k : TokenKind) : ofName? k.name = some k := by cases k <;> decide

end TokenKind

/-- A token of the language. -/
structure Token where
  kind : TokenKind
  lexeme : String
  literal : Option Value
  line : Nat
deriving DecidableEq

/-- the token that ends the source on a line -/
def Token.endOn (line : Nat) : Token := ⟨.endMark, "", none, line⟩

end Lox
