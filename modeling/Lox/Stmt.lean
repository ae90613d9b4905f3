import Lox.Expr

/-!
Statements. A `for` loop is no statement of its own: it is a block with a loop inside, `Stmt.forLoop`.
-/

namespace Lox

/-- A statement of the language. -/
inductive Stmt where
  | expression (value : Expr)
  | print (value : Expr)
  | declare (name : Token) (initial : Option Expr)
  | block (body : List Stmt)
  | branch (condition : Expr) (yes : Stmt) (no : Option Stmt)
  | loop (condition : Expr) (body : Stmt)

/-- The loop `for (initial; condition; step) body`. The initial statement has the scope around the loop, and the body has
one of its own with the step after it, anew each time. Without a condition the loop goes on. -/
def Stmt.forLoop (initial : Option Stmt) (condition : Option Expr) (step : Option Expr) (body : Stmt) : Stmt :=
  let round := block (body :: (step.map expression).toList)
  block (initial.toList ++ [loop (condition.getD (.literal (.boolean true))) round])

end Lox
