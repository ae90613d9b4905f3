import Lox.Number.Text

/-!
Values: what literals denote, variables hold and expressions evaluate to.
-/

namespace Lox

/-- A value of the language. -/
inductive Value where
  | nil
  | boolean (b : Bool)
  | number (x : Float)
  | string (s : String)
deriving DecidableEq

namespace Value

/-- Everything counts as true in a condition, except `nil` and `false`. -/
def truthy : Value → Bool
  | nil => false
  | boolean b => b
  | number _ => true
  | string _ => true

/-- Equality in the language: values of different types differ, and numbers compare as numbers, so that the two zeros
are equal and what is not a number differs from itself. -/
def equals : Value → Value → Bool
  | nil, nil => true
  | boolean a, boolean b => a == b
  | number x, number y => x == y
  | string s, string t => s == t
  | _, _ => false

/-- the text `print` writes -/
def format : Value → Except OutOfRange String
  | nil => .ok "nil"
  | boolean true => .ok "true"
  | boolean false => .ok "false"
  | number x => Number.format x
  | string s => .ok s

/-- the text `print` writes, which never goes out of range -/
def display (v : Value) : String := v.format.toOption.getD ""

end Value

end Lox
