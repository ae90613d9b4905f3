import Lox.Stmt
import Lox.Expr.Parse

/-!
The grammar of statements and declarations.

`Stmt.parser n` parses statements where at most `n` tokens are left. The parsers of single constructs take the parsers of the
expressions and statements inside them, and come after the word that starts the construct.

A declaration that cannot be parsed is dropped, in a block as at the top, and the next one starts at the next boundary.
-/

namespace Lox.Stmt

open Lox.Parser

/-- the value of a variable that is declared, if it has one -/
def initialValue (expr : Parser Expr) : Parser (Option Expr) := do
  match ← accept .equal with
  | some _ => some <$> expr
  | none => pure none

/-- the rest of a variable declaration -/
def declaration (expr : Parser Expr) : Parser Stmt := do
  let name ← expect .identifier .variableName
  let initial ← initialValue expr
  let _ ← expect .semicolon .semicolonAfterDeclaration
  pure (declare name initial)

/-- an expression as a statement -/
def expressionStatement (expr : Parser Expr) : Parser Stmt := do
  let value ← expr
  let _ ← expect .semicolon .semicolonAfterExpression
  pure (expression value)

/-- the rest of a `print` statement -/
def printStatement (expr : Parser Expr) : Parser Stmt := do
  let value ← expr
  let _ ← expect .semicolon .semicolonAfterValue
  pure (print value)

/-- the rest of a conditional; an `else` belongs to the nearest `if` -/
def conditional (expr : Parser Expr) (body : Parser Stmt) : Parser Stmt := do
  let _ ← expect .leftParen .parenAfterIf
  let condition ← expr
  let _ ← expect .rightParen .parenAfterIfCondition
  let yes ← body
  match ← accept .kwElse with
  | some _ => do
    let no ← body
    pure (branch condition yes (some no))
  | none => pure (branch condition yes none)

/-- the rest of a `while` loop -/
def whileLoop (expr : Parser Expr) (body : Parser Stmt) : Parser Stmt := do
  let _ ← expect .leftParen .parenAfterWhile
  let condition ← expr
  let _ ← expect .rightParen .parenAfterCondition
  let body ← body
  pure (loop condition body)

/-- the first clause of a `for` loop, with its semicolon -/
def forInitial (expr : Parser Expr) : Parser (Option Stmt) := do
  match (← peek).kind with
  | .semicolon => do
    skip
    pure none
  | .kwVar => do
    skip
    some <$> declaration expr
  | _ => some <$> expressionStatement expr

/-- an expression that is absent if the token after it comes at once -/
def optionalExpr (expr : Parser Expr) (stop : TokenKind) : Parser (Option Expr) := do
  if (← peek).kind = stop then pure none else some <$> expr

/-- a clause of a `for` loop and the token after it -/
def forClause (expr : Parser Expr) (stop : TokenKind) (reason : Reason) : Parser (Option Expr) := do
  let clause ← optionalExpr expr stop
  let _ ← expect stop reason
  pure clause

/-- the rest of a `for` loop -/
def forStatement (expr : Parser Expr) (body : Parser Stmt) : Parser Stmt := do
  let _ ← expect .leftParen .parenAfterFor
  let initial ← forInitial expr
  let condition ← forClause expr .semicolon .semicolonAfterLoopCondition
  let step ← forClause expr .rightParen .parenAfterForClauses
  let body ← body
  pure (forLoop initial condition step body)

/-- a declaration, or a statement in the place of one -/
def declarationOr (expr : Parser Expr) (statement : Parser Stmt) : Parser Stmt := do
  match ← accept .kwVar with
  | some _ => declaration expr
  | none => statement

/-- Less than `n` declarations, up to a token that closes them. Those that cannot be parsed are dropped. -/
def declarations (closes : TokenKind → Bool) (one : Parser Stmt) : Nat → Parser (List Stmt)
  | 0 => overrun
  | n + 1 => do
    if closes (← peek).kind then pure []
    else do
      let head ← recover one
      let tail ← declarations closes one n
      pure (head.toList ++ tail)

/-- A block ends with a brace, or at the end. -/
def closesBlock (kind : TokenKind) : Bool := kind = .rightBrace || kind = .endMark

/-- the rest of a block -/
def blockStatement (n : Nat) (expr : Parser Expr) (body : Parser Stmt) : Parser Stmt := do
  let inner ← declarations closesBlock (declarationOr expr body) n
  let _ ← expect .rightBrace .braceAfterBlock
  pure (block inner)

/-- a statement, given the parser of the statements inside it -/
def statement (n : Nat) (expr : Parser Expr) (body : Parser Stmt) : Parser Stmt := do
  match (← peek).kind with
  | .kwFor => do skip; forStatement expr body
  | .kwIf => do skip; conditional expr body
  | .kwPrint => do skip; printStatement expr
  | .kwWhile => do skip; whileLoop expr body
  | .leftBrace => do skip; blockStatement n expr body
  | _ => expressionStatement expr

/-- a statement -/
def parser : Nat → Parser Stmt
  | 0 => overrun
  | n + 1 => statement n (Expr.parser (n + 1)) (parser n)

/-- declarations up to the end -/
def programParser (n : Nat) : Parser (List Stmt) :=
  declarations (· = .endMark) (declarationOr (Expr.parser n) (parser n)) n

/-- the statements that the tokens before the end mark are -/
def parse (tokens : List Token) : Parse (List Stmt) :=
  let p := Parser.run (programParser tokens.length) tokens
  ⟨p.result.getD [], p.errors, p.fault⟩

end Lox.Stmt
