import Lox.Token

/-!
Expressions. Operators and names stay tokens, so that an error can point at them.
-/

namespace Lox

/-- An expression of the language. -/
inductive Expr where
  | literal (value : Value)
  | reference (name : Token)
  | assign (name : Token) (value : Expr)
  | unary (operator : Token) (operand : Expr)
  | binary (left : Expr) (operator : Token) (right : Expr)
  | logical (left : Expr) (operator : Token) (right : Expr)
  | group (inner : Expr)
deriving DecidableEq

/-- The parts of a node in parentheses, a space between any two. -/
def parenthesize (parts : List String) : String := "(" ++ " ".intercalate parts ++ ")"

/-- an expression with its operators first and every node but literals and names in parentheses -/
def Expr.parenthesized : Expr → String
  | literal value => value.display
  | reference name => name.lexeme
  | assign name value => parenthesize ["=", name.lexeme, value.parenthesized]
  | unary operator operand => parenthesize [operator.lexeme, operand.parenthesized]
  | binary left operator right => parenthesize [operator.lexeme, left.parenthesized, right.parenthesized]
  | logical left operator right => parenthesize [operator.lexeme, left.parenthesized, right.parenthesized]
  | group inner => parenthesize ["group", inner.parenthesized]

end Lox
