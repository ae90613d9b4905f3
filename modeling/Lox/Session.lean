import Lox.Eval
import Lox.Stmt.Parse
import Lox.Token.Scan

/-!
Running source text. A run is

* `result`: what it gives, or why it failed,
* `env`: the environment after it,
* `printed`: the texts it printed,
* `diagnostics`: the errors it reported.

`execute` runs a program and `evaluate` an expression. Neither starts if scanning or parsing finds an error; a runtime error
ends them, is reported, and leaves the global scope alone. An environment is all that goes from one run to the next.
-/

namespace Lox

/-- Why a run fails. -/
inductive Failure where
  | rejected (count : Nat)
  | runtime (error : RuntimeError)
  | fault (fault : Fault)
  | outOfFuel
deriving DecidableEq

/-- the text for source that is not run because of `count` errors -/
def rejectedMessage (count : Nat) : String := s!"{count} syntax error(s), program was not run"

/-- What a run leaves. -/
structure Run (α : Type) where
  result : Except Failure α
  env : Env
  printed : Array String
  diagnostics : Diagnostics

namespace Run

variable {α : Type}

/-- the run of a computation that starts in an environment -/
def ofEval (x : Eval α) (env : Env) : Run α :=
  match x ⟨env, #[]⟩ with
  | .ok a s => ⟨.ok a, s.env, s.printed, .empty⟩
  | .error (.error e) s => ⟨.error (.runtime e), s.env.reset, s.printed, .empty⟩
  | .error (.fault f) s => ⟨.error (.fault f), s.env, s.printed, .empty⟩
  | .error .outOfFuel s => ⟨.error .outOfFuel, s.env, s.printed, .empty⟩

/-- the run of source text that has errors -/
def rejected (errors : List SyntaxError) (env : Env) : Run α :=
  ⟨.error (.rejected errors.length), env, #[], ⟨errors, []⟩⟩

/-- the run of source text that could not be scanned or parsed to the end -/
def faulted (fault : Fault) (env : Env) : Run α := ⟨.error (.fault fault), env, #[], .empty⟩

/-- Report the runtime error a run failed with, if it did. -/
def reported (run : Run α) : Run α :=
  match run.result with
  | .error (.runtime e) => { run with diagnostics := run.diagnostics.addRuntime e }
  | _ => run

end Run

/-- Run statements. -/
def executeTree (fuel : Nat) (program : List Stmt) (env : Env) : Run Unit :=
  (Run.ofEval (Stmt.execAll fuel program) env).reported

/-- Evaluate an expression, without a report. -/
def evaluateTree (e : Expr) (env : Env) : Run Value := Run.ofEval e.eval env

/-- the statements of source text, with all errors in it -/
def parseProgram (source : String) : Parse (List Stmt) :=
  let s := scan source
  let p := Stmt.parse s.tokens
  ⟨p.result, s.errors ++ p.errors, s.fault <|> p.fault⟩

/-- the expression that source text is, with all errors in it -/
def parseExpression (source : String) : Parse (Option Expr) :=
  let s := scan source
  let p := Expr.parse s.tokens
  ⟨p.result, s.errors ++ p.errors, s.fault <|> p.fault⟩

/-- Run source text as a program. -/
def execute (fuel : Nat) (source : String) (env : Env) : Run Unit :=
  let p := parseProgram source
  match p.fault with
  | some fault => .faulted fault env
  | none => if p.errors = [] then executeTree fuel p.result env else .rejected p.errors env

/-- Evaluate source text as an expression. -/
def evaluate (source : String) (env : Env) : Run Value :=
  let p := parseExpression source
  match p.fault, p.result with
  | some fault, _ => .faulted fault env
  | none, some e => if p.errors = [] then (evaluateTree e env).reported else .rejected p.errors env
  | none, none => .rejected p.errors env

/-- Source text is an expression by itself, without any error. -/
def isExpression (source : String) : Bool :=
  let p := parseExpression source
  p.result.isSome && p.errors.isEmpty

/-- fuel for more rounds of a loop than a machine can make -/
def ample : Nat := 0x4000000000000000

end Lox
