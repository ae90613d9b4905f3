import Lox.Env
import Lox.Stmt

/-!
The meaning of expressions and statements.

A computation of `Eval α` runs on a state:

* `env`: the scopes,
* `printed`: the texts printed so far.

It gives a result and a state, or it stops and gives the reason and the state it stopped in: a runtime error, a fault, or the
end of its fuel. Fuel bounds how often a loop goes round. Expressions need none, and neither does a statement without loops.
-/

namespace Lox

/-! ## Computations -/

/-- What a program runs on. -/
structure State where
  env : Env
  printed : Array String

/-- Why a program stops. -/
inductive Stop where
  | error (error : RuntimeError)
  | fault (fault : Fault)
  | outOfFuel
deriving DecidableEq

/-- A computation on a state that may stop early. -/
abbrev Eval (α : Type) : Type := EStateM Stop State α

namespace Eval

variable {α : Type}

/-- the result of an operation that can fail -/
def ofExcept : Except Stop α → Eval α
  | .ok a => pure a
  | .error stop => throw stop

/-- Replace the environment. -/
def setEnv (env : Env) : Eval Unit := modify fun s => { s with env := env }

/-- the result of an operation on scopes -/
def ofScopes : Except Fault (Except RuntimeError α) → Eval α
  | .ok (.ok a) => pure a
  | .ok (.error error) => throw (.error error)
  | .error fault => throw (.fault fault)

/-- the value of a name -/
def lookup (name : Token) : Eval Value := do
  ofScopes ((← get).env.lookup name)

/-- Rebind a name. -/
def assign (name : Token) (value : Value) : Eval Unit := do
  setEnv (← ofScopes ((← get).env.assign name value))

/-- Bind a name in the innermost scope. -/
def define (name : String) (value : Value) : Eval Unit := do
  setEnv (← ofExcept (((← get).env.define name value).mapError Stop.fault))

/-- Print a value. -/
def print (value : Value) : Eval Unit := do
  let text ← ofExcept (value.format.mapError (Stop.fault ∘ Fault.outOfRange))
  modify fun s => { s with printed := s.printed.push text }

/-- Enter a scope. -/
def enter : Eval Unit := modify fun s => { s with env := s.env.push }

/-- Leave the innermost scope. -/
def leave : Eval Unit := do
  setEnv (← ofExcept ((← get).env.pop.mapError Stop.fault))

/-- Run a computation and give its result, or why it stopped. -/
def attempt (x : Eval α) : Eval (Except Stop α) := fun s =>
  match x s with
  | .ok a s' => .ok (.ok a) s'
  | .error stop s' => .ok (.error stop) s'

/-- Run a computation in a scope of its own, which is left however it ends. -/
def inScope (x : Eval Unit) : Eval Unit := do
  enter
  let result ← attempt x
  leave
  ofExcept result

/-- Repeat a body as long as a condition is true, at most `n` times. -/
def loop (condition : Eval Value) (body : Eval Unit) : Nat → Eval Unit
  | 0 => throw .outOfFuel
  | n + 1 => do
    let value ← condition
    if value.truthy then do
      body
      loop condition body n
    else pure ()

end Eval

/-! ## Operators -/

/-- the operators on numbers -/
def arithmetic? : TokenKind → Option (Float → Float → Value)
  | .minus => some fun x y => .number (x - y)
  | .slash => some fun x y => .number (x / y)
  | .star => some fun x y => .number (x * y)
  | .plus => some fun x y => .number (x + y)
  | .greater => some fun x y => .boolean (decide (y < x))
  | .greaterEqual => some fun x y => .boolean (decide (y ≤ x))
  | .less => some fun x y => .boolean (decide (x < y))
  | .lessEqual => some fun x y => .boolean (decide (x ≤ y))
  | _ => none

/-- the value of a binary operator on two values -/
def applyBinary (operator : Token) (a b : Value) : Except Stop Value :=
  match arithmetic? operator.kind with
  | some f =>
    match a, b with
    | .number x, .number y => .ok (f x y)
    | _, _ => .error (.error (.numbersExpected operator))
  | none =>
    match operator.kind with
    | .equalEqual => .ok (.boolean (a.equals b))
    | .bangEqual => .ok (.boolean (!a.equals b))
    | kind => .error (.fault (.binaryOperator kind))

/-- the value of a prefix operator on a value -/
def applyUnary (operator : Token) (a : Value) : Except Stop Value :=
  match operator.kind with
  | .bang => .ok (.boolean (!a.truthy))
  | .minus =>
    match a with
    | .number x => .ok (.number (-x))
    | _ => .error (.error (.numberExpected operator))
  | _ => .error (.fault (.unaryOperator operator))

/-- Whether a logical operator has its value from its left operand `a` alone. -/
def decidedBy (operator : Token) (a : Value) : Except Stop Bool :=
  match operator.kind with
  | .kwOr => .ok a.truthy
  | .kwAnd => .ok (!a.truthy)
  | kind => .error (.fault (.logicalOperator kind))

/-! ## Expressions and statements -/

/-- the value of an expression; operands are evaluated from left to right, before the operator looks at them -/
def Expr.eval : Expr → Eval Value
  | literal value => pure value
  | reference name => Eval.lookup name
  | assign name value => do
    let v ← value.eval
    Eval.assign name v
    pure v
  | unary operator operand => do
    let a ← operand.eval
    Eval.ofExcept (applyUnary operator a)
  | binary left operator right => do
    let a ← left.eval
    let b ← right.eval
    Eval.ofExcept (applyBinary operator a b)
  | logical left operator right => do
    let a ← left.eval
    let decided ← Eval.ofExcept (decidedBy operator a)
    if decided then pure a else right.eval
  | group inner => inner.eval

mutual

/-- Run a statement whose loops go round at most `fuel` times each. -/
def Stmt.exec (fuel : Nat) : Stmt → Eval Unit
  | .expression value => do
    let _ ← value.eval
    pure ()
  | .print value => do
    let v ← value.eval
    Eval.print v
  | .declare name none => Eval.define name.lexeme .nil
  | .declare name (some value) => do
    let v ← value.eval
    Eval.define name.lexeme v
  | .block body => Eval.inScope (Stmt.execAll fuel body)
  | .branch condition yes no => do
    let value ← condition.eval
    if value.truthy then yes.exec fuel else Stmt.execElse fuel no
  | .loop condition body => Eval.loop condition.eval (body.exec fuel) fuel

/-- Run the alternative of a conditional, if it has one. -/
def Stmt.execElse (fuel : Nat) : Option Stmt → Eval Unit
  | none => pure ()
  | some s => s.exec fuel

/-- Run statements in order. -/
def Stmt.execAll (fuel : Nat) : List Stmt → Eval Unit
  | [] => pure ()
  | s :: rest => do
    s.exec fuel
    Stmt.execAll fuel rest

end

end Lox
