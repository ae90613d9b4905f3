import Lox.Expr
import Lox.Parser

/-!
The grammar of expressions, from the loosest to the tightest binding:

* assignment, to the right;
* the levels of `Level.ladder`, each a chain of operands of the next level, to the left;
* the prefix operators `!` and `-`;
* literals, names, and expressions in parentheses.

`Expr.parser n` parses expressions where at most `n` tokens are left. A bound that is used up counts as a token that is missing.
-/

namespace Lox

/-- The levels of infix operators. -/
inductive Level where
  | or | and | equality | comparison | additive | multiplicative
deriving DecidableEq

namespace Level

/-- the level of an infix operator -/
def of? : TokenKind → Option Level
  | .kwOr => some or
  | .kwAnd => some and
  | .bangEqual | .equalEqual => some equality
  | .greater | .greaterEqual | .less | .lessEqual => some comparison
  | .minus | .plus => some additive
  | .slash | .star => some multiplicative
  | _ => none

/-- the levels, the loosest first -/
def ladder : List Level := [or, and, equality, comparison, additive, multiplicative]

/-- the node of an operator of a level -/
def node : Level → Expr → Token → Expr → Expr
  | or | and => Expr.logical
  | equality | comparison | additive | multiplicative => Expr.binary

end Level

/-- the prefix operators -/
def isPrefixOperator : TokenKind → Bool
  | .bang | .minus => true
  | _ => false

/-- the value of a token that is an expression by itself, other than a name -/
def Token.constant? (t : Token) : Option Value :=
  match t.kind with
  | .kwFalse => some (.boolean false)
  | .kwTrue => some (.boolean true)
  | .kwNil => some .nil
  | .number | .string => some (t.literal.getD .nil)
  | _ => none

namespace Expr

open Lox.Parser

/-- a literal, a name, or an expression in parentheses -/
def primary (inside : Parser Expr) : Parser Expr := do
  let t ← peek
  match t.constant? with
  | some value => do
    skip
    pure (literal value)
  | none =>
    match t.kind with
    | .identifier => do
      skip
      pure (reference t)
    | .leftParen => do
      skip
      let inner ← inside
      let _ ← expect .rightParen .parenAfterExpression
      pure (group inner)
    | _ => fail .expression

/-- at most `n` prefix operators, and what they apply to -/
def prefixed (operand : Parser Expr) : Nat → Parser Expr
  | 0 => overrun
  | n + 1 => do
    match ← acceptAny isPrefixOperator with
    | some operator => do
      let e ← prefixed operand n
      pure (unary operator e)
    | none => operand

/-- the operators and operands of a level that follow its first operand `left`, less than `n` of each -/
def chainTail (level : Level) (operand : Parser Expr) : Nat → Expr → Parser Expr
  | 0, _ => overrun
  | n + 1, left => do
    match ← acceptAny (Level.of? · = some level) with
    | none => pure left
    | some operator =>
      let right ← operand
      chainTail level operand n (level.node left operator right)

/-- operands with the operators of a level between them -/
def chain (n : Nat) (level : Level) (operand : Parser Expr) : Parser Expr := do
  let left ← operand
  chainTail level operand n left

/-- an expression of given levels -/
def climb (n : Nat) (levels : List Level) (operand : Parser Expr) : Parser Expr :=
  levels.foldr (chain n) operand

/-- An assignment, or what would stand on its left. If that is no name, the complaint is about the sign, and the value
stands for the whole. -/
def assignment (value : Parser Expr) (target : Parser Expr) : Parser Expr := do
  let left ← target
  match ← accept .equal with
  | none => pure left
  | some sign =>
    let right ← value
    match left with
    | reference name => pure (assign name right)
    | _ =>
      complain .assignmentTarget sign
      pure right

/-- an expression -/
def parser : Nat → Parser Expr
  | 0 => overrun
  | n + 1 => assignment (parser n) (climb (n + 1) Level.ladder (prefixed (primary (parser n)) (n + 1)))

/-- an expression with nothing after it -/
def wholeParser (n : Nat) : Parser Expr := do
  let e ← parser n
  if (← peek).kind = .endMark then pure e else fail .endOfExpression

/-- the expression that the tokens before the end mark are -/
def parse (tokens : List Token) : Parse (Option Expr) := Parser.run (wholeParser tokens.length) tokens

end Expr

end Lox
