import Lox.Token

/-!
Faults: states that no program made from source text reaches. A tree built by hand may hold an operator the language does not
have, a scope may be left that was never entered, a chain of scopes may not end, tokens may be read that do not end with an
end mark, and an access may go out of range.

* `Fault.message`: the text of a fault. A token in it is written out field by field, its lexeme quoted.
-/

namespace Lox

/-- A state that only trees and scopes handled by hand reach. -/
inductive Fault where
  | globalPop
  | binaryOperator (kind : TokenKind)
  | logicalOperator (kind : TokenKind)
  | unaryOperator (operator : Token)
  | endlessChain
  | pastLastToken
  | outOfRange (request : OutOfRange)
deriving DecidableEq

/-! ## Tokens field by field -/

/-- a character inside a quoted text -/
def escapedChar (c : Char) : String :=
  match c with
  | '"' => "\\\""
  | '\\' => "\\\\"
  | '\n' => "\\n"
  | '\r' => "\\r"
  | '\t' => "\\t"
  | '\x00' => "\\0"
  | _ =>
    if c.toNat < 0x20 ∨ c.toNat = 0x7F then "\\u\x7b" ++ String.ofList (Nat.toDigits 16 c.toNat) ++ "\x7d"
    else String.singleton c

/-- a text in quotes -/
def quoted (s : String) : String := "\"" ++ String.join (s.toList.map escapedChar) ++ "\""

/-- a value with its type -/
def Value.typed : Value → String
  | nil => "Nil"
  | boolean b => s!"Boolean({b})"
  | number x => s!"Number({Number.text x})"
  | string s => s!"String({quoted s})"

/-- a token field by field -/
def Token.fields (t : Token) : String :=
  let literal :=
    match t.literal with
    | none => "None"
    | some value => s!"Some({value.typed})"
  s!"Token \x7b token_type: {t.kind.name}, lexeme: {quoted t.lexeme}, literal: {literal}, line: {t.line} \x7d"

/-! ## Texts -/

/-- the text of a fault -/
def Fault.message : Fault → String
  | globalPop => "Attempted to pop the global scope."
  | binaryOperator kind => s!"Unhandled binary non-numeric operation type: {kind.name}"
  | logicalOperator kind => s!"Unhandled logical operator: {kind.name}"
  | unaryOperator operator => s!"Unary expression not implemented in interpreter: {operator.fields}"
  | endlessChain => "The chain of scopes does not end."
  | pastLastToken => "A token was read past the last one."
  | outOfRange request => request.message

end Lox
