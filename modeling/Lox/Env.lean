import Lox.Diagnostic
import Lox.Fault

/-!
Environments: the scopes a program runs in. An environment is

* `scopes`: the scopes, each with its bindings and the slot of the scope around it, the global one in slot `0`,
* `current`: the slot of the innermost scope.

A name means its binding in the innermost scope that has one: `find` walks the slots outward from the current one. A
walk that goes on for more steps than there are scopes would never end.
-/

namespace Lox

/-! ## Frames -/

/-- The bindings of one scope, each name once, in the order they were made. -/
structure Frame where
  entries : List (String × Value)
deriving DecidableEq

namespace Frame

/-- no bindings -/
def empty : Frame := ⟨[]⟩

/-- the value of a name -/
def get? (f : Frame) (name : String) : Option Value := f.entries.lookup name

/-- The frame binds a name. -/
def binds (f : Frame) (name : String) : Bool := (f.get? name).isSome

/-- a list of bindings with the one of a name made or replaced -/
def setEntry (name : String) (value : Value) : List (String × Value) → List (String × Value)
  | [] => [(name, value)]
  | (key, old) :: rest => if key = name then (key, value) :: rest else (key, old) :: setEntry name value rest

/-- the frame with a name bound to a value -/
def set (f : Frame) (name : String) (value : Value) : Frame := ⟨setEntry name value f.entries⟩

theorem lookup_setEntry (name key : String) (value : Value) (entries : List (String × Value)) :
    (setEntry name value entries).lookup key = if key = name then some value else entries.lookup key := by
  induction entries with
  | nil =>
    by_cases hk : key = name
    · simp [setEntry, hk]
    · have hb : (key == name) = false := by simpa using hk
      simp [setEntry, List.lookup_cons, hb, hk]
  | cons entry rest ih =>
    obtain ⟨k, old⟩ := entry
    by_cases hn : k = name
    · subst hn
      by_cases hk : key = k
      · simp [setEntry, hk]
      · have hb : (key == k) = false := by simpa using hk
        simp [setEntry, List.lookup_cons, hb, hk]
    · by_cases hk : key = k
      · subst hk
        simp [setEntry, hn]
      · have hb : (key == k) = false := by simpa using hk
        simpa [setEntry, hn, List.lookup_cons, hb] using ih

/-- A frame with a name bound gives the value for this name, and what it gave before for any other. -/
@[simp] theorem get?_set (f : Frame) (name key : String) (value : Value) :
    (f.set name value).get? key = if key = name then some value else f.get? key :=
  lookup_setEntry name key value f.entries

end Frame

/-! ## Environments -/

/-- A scope: its bindings, and the slot of the scope around it. -/
structure Scope where
  frame : Frame
  enclosing : Option Nat
deriving DecidableEq

/-- The scopes of a program, and the slot of the innermost one. -/
structure Env where
  scopes : Array Scope
  current : Nat
deriving DecidableEq

namespace Env

/-- the global scope alone, without bindings -/
def initial : Env := ⟨#[⟨Frame.empty, none⟩], 0⟩

/-- the scope in a slot -/
def scope (env : Env) (i : Nat) : Except Fault Scope := (Range.item env.scopes i).mapError Fault.outOfRange

/-- the slots from a slot outward, of which there are at most `n` -/
def outward (env : Env) : Nat → Nat → Except Fault (List Nat)
  | 0, _ => .error .endlessChain
  | n + 1, i => do
    match (← env.scope i).enclosing with
    | none => pure [i]
    | some j => (i :: ·) <$> env.outward n j

/-- the slots of the active scopes, the innermost first -/
def chain (env : Env) : Except Fault (List Nat) := env.outward env.scopes.size env.current

/-- how many scopes are active -/
def depth (env : Env) : Nat :=
  match env.chain with
  | .ok slots => slots.length
  | .error _ => 0

/-- the first slot with a binding of a name, from a slot outward through at most `n` of them -/
def findFrom (env : Env) (name : String) : Nat → Nat → Except Fault (Option Nat)
  | 0, _ => .error .endlessChain
  | n + 1, i => do
    let s ← env.scope i
    if s.frame.binds name then pure (some i)
    else
      match s.enclosing with
      | none => pure none
      | some j => env.findFrom name n j

/-- the slot of the innermost scope that binds a name -/
def find (env : Env) (name : String) : Except Fault (Option Nat) := env.findFrom name env.scopes.size env.current

/-- the environment with a name bound in a slot -/
def setIn (env : Env) (i : Nat) (name : String) (value : Value) : Except Fault Env := do
  let s ← env.scope i
  pure { env with scopes := env.scopes.set! i { s with frame := s.frame.set name value } }

/-- Bind a name in the innermost scope. -/
def define (env : Env) (name : String) (value : Value) : Except Fault Env := env.setIn env.current name value

/-- Enter a scope. -/
def push (env : Env) : Env := ⟨env.scopes.push ⟨Frame.empty, some env.current⟩, env.scopes.size⟩

/-- Leave the innermost scope, which has to lie inside another. -/
def pop (env : Env) : Except Fault Env := do
  match (← env.scope env.current).enclosing with
  | some outer => pure ⟨env.scopes.take env.current, outer⟩
  | none => throw .globalPop

/-- Leave all scopes but the global one. -/
def reset (env : Env) : Env := ⟨env.scopes.take 1, 0⟩

/-- the value of a name -/
def get? (env : Env) (name : String) : Except Fault (Option Value) := do
  match ← env.find name with
  | some i => return (← env.scope i).frame.get? name
  | none => pure none

/-- the environment with a name rebound where it is bound -/
def assign? (env : Env) (name : String) (value : Value) : Except Fault (Option Env) := do
  match ← env.find name with
  | some i => some <$> env.setIn i name value
  | none => pure none

/-- the value of the name a token is, or the error that it has none -/
def lookup (env : Env) (name : Token) : Except Fault (Except RuntimeError Value) := do
  match ← env.get? name.lexeme with
  | some value => pure (.ok value)
  | none => pure (.error (.undefinedVariable name))

/-- Rebind the name a token is. -/
def assign (env : Env) (name : Token) (value : Value) : Except Fault (Except RuntimeError Env) := do
  match ← env.assign? name.lexeme value with
  | some env' => pure (.ok env')
  | none => pure (.error (.undefinedVariable name))

end Env

end Lox
