import Lox.Env

/-!
Operations on environments as data, and what a sequence of them gives. A fault leaves the environment as it was, and so
does an error.
-/

namespace Lox.Env

/-- An operation on an environment. -/
inductive Op where
  | push
  | pop
  | reset
  | define (name : String) (value : Value)
  | assign (name : Token) (value : Value)
  | get (name : Token)
deriving DecidableEq

/-- What an operation gives. -/
inductive Reply where
  | done
  | value (value : Value)
  | error (error : RuntimeError)
  | fault (fault : Fault)
deriving DecidableEq

/-- what an operation gives that cannot meet an error, and the environment after it -/
def settle (env : Env) : Except Fault Env → Reply × Env
  | .ok env' => (.done, env')
  | .error fault => (.fault fault, env)

/-- what an operation gives, and the environment after it -/
def apply (env : Env) : Op → Reply × Env
  | .push => (.done, env.push)
  | .pop => env.settle env.pop
  | .reset => (.done, env.reset)
  | .define name value => env.settle (env.define name value)
  | .assign name value =>
    match env.assign name value with
    | .ok (.ok env') => (.done, env')
    | .ok (.error error) => (.error error, env)
    | .error fault => (.fault fault, env)
  | .get name =>
    match env.lookup name with
    | .ok (.ok value) => (.value value, env)
    | .ok (.error error) => (.error error, env)
    | .error fault => (.fault fault, env)

/-- what each operation of a sequence gives, with the depth after it -/
def replies (env : Env) : List Op → List (Reply × Nat)
  | [] => []
  | op :: ops =>
    let (reply, env') := env.apply op
    (reply, env'.depth) :: env'.replies ops

end Lox.Env
