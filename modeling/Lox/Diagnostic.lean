import Lox.Token

/-!
Diagnostics: what is wrong with a program, and the texts that say so.

* `SyntaxError`: the source breaks the lexical rules or the grammar on a line.
* `RuntimeError`: a running program cannot go on, because of the token with a given lexeme on a line.
* `Diagnostics`: both kinds, each in order of arrival.
-/

namespace Lox

/-- An error of the source. `location` says where on the line it is, or is empty. -/
structure SyntaxError where
  line : Nat
  location : String
  message : String
deriving DecidableEq

namespace SyntaxError

/-- an error at a token -/
def atToken (token : Token) (message : String) : SyntaxError :=
  if token.kind = .endMark then ⟨token.line, " at end", message⟩
  else ⟨token.line, s!" at '{token.lexeme}'", message⟩

/-- the text shown to the user -/
def text (e : SyntaxError) : String := s!"[line {e.line}] Error{e.location}: {e.message}"

end SyntaxError

/-- An error of a running program, at a token. -/
structure RuntimeError where
  line : Nat
  lexeme : String
  message : String
deriving DecidableEq

namespace RuntimeError

/-- an error at a token -/
def atToken (token : Token) (message : String) : RuntimeError := ⟨token.line, token.lexeme, message⟩

/-- A name is read or assigned that no scope binds. -/
def undefinedVariable (name : Token) : RuntimeError := atToken name s!"Undefined variable '{name.lexeme}'."

/-- A binary operator on numbers has an operand that is none. -/
def numbersExpected (operator : Token) : RuntimeError := atToken operator "Operands must be numbers."

/-- The operand of a negation is no number. -/
def numberExpected (operator : Token) : RuntimeError := atToken operator "Operand must be a number."

/-- the text shown to the user -/
def text (e : RuntimeError) : String := s!"{e.message}\n[line {e.line}]"

end RuntimeError

/-- The errors reported so far. -/
structure Diagnostics where
  syntaxErrors : List SyntaxError
  runtimeErrors : List RuntimeError
deriving DecidableEq

namespace Diagnostics

/-- nothing reported -/
def empty : Diagnostics := ⟨[], []⟩

/-- one more error of the source -/
def addSyntax (d : Diagnostics) (e : SyntaxError) : Diagnostics := { d with syntaxErrors := d.syntaxErrors ++ [e] }

/-- one more error of a running program -/
def addRuntime (d : Diagnostics) (e : RuntimeError) : Diagnostics := { d with runtimeErrors := d.runtimeErrors ++ [e] }

/-- the texts, those of the errors of the source first -/
def messages (d : Diagnostics) : List String :=
  d.syntaxErrors.map SyntaxError.text ++ d.runtimeErrors.map RuntimeError.text

end Diagnostics

end Lox
