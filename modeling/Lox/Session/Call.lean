import Lox.Session

/-!
Sessions: calls one after the other, each in the environment the one before it left. A fault ends the session.
-/

namespace Lox

/-- What is asked of a session. -/
inductive Call where
  | execute (source : String)
  | evaluate (source : String)
  | lookup (name : Token)
  | executeTree (program : List Stmt)
  | evaluateTree (tree : Expr)

namespace Call

/-- the run of a call; where no value is asked for there is none -/
def run (fuel : Nat) (env : Env) : Call → Run (Option Value)
  | execute source => withoutValue (Lox.execute fuel source env)
  | evaluate source => withValue (Lox.evaluate source env)
  | lookup name => withValue (Run.ofEval (Eval.lookup name) env)
  | executeTree program => withoutValue (Lox.executeTree fuel program env)
  | evaluateTree tree => withValue (Lox.evaluateTree tree env)
where
  withoutValue (r : Run Unit) : Run (Option Value) := { r with result := r.result.map fun _ => none }
  withValue (r : Run Value) : Run (Option Value) := { r with result := r.result.map some }

/-- The session goes on after a run, whatever errors it met, unless it was cut off. -/
def goesOn {α : Type} (run : Run α) : Bool :=
  match run.result with
  | .error (.fault _) | .error .outOfFuel => false
  | _ => true

/-- the runs of the calls of a session, up to the first that was cut off -/
def runs (fuel : Nat) (env : Env) : List Call → List (Run (Option Value))
  | [] => []
  | call :: calls =>
    let r := call.run fuel env
    r :: if goesOn r then runs fuel r.env calls else []

end Call

/-- Where printed texts go: all of them arrive, or none. -/
inductive Sink where
  | accepting
  | failing
deriving DecidableEq

/-- what arrives of printed texts, each on a line of its own -/
def Sink.received : Sink → Array String → String
  | accepting, printed => String.join (printed.toList.map (· ++ "\n"))
  | failing, _ => ""

end Lox
