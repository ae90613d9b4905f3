import Lox.Diagnostic
import Lox.Fault

/-!
Parsers: functions on the tokens that are left. A parser's outcome is

* `value`: what it parsed, or why it has nothing,
* `rest`: the tokens it did not consume,
* `complaints`: what it found wrong, in order.

A parser that gives up has complained, which every outcome carries a proof of; one that complained need not give up. The
tokens end with an end mark, which is looked at and never consumed; to look at the next token where there is none is a fault.
-/

namespace Lox

/-! ## Complaints -/

/-- What the grammar expects and does not find. -/
inductive Reason where
  | variableName
  | semicolonAfterDeclaration
  | semicolonAfterValue
  | semicolonAfterExpression
  | semicolonAfterLoopCondition
  | braceAfterBlock
  | parenAfterIf
  | parenAfterIfCondition
  | parenAfterWhile
  | parenAfterCondition
  | parenAfterFor
  | parenAfterForClauses
  | parenAfterExpression
  | expression
  | assignmentTarget
  | endOfExpression
deriving DecidableEq

/-- the text of a reason -/
def Reason.message : Reason → String
  | variableName => "Expect variable name."
  | semicolonAfterDeclaration => "Expect ';' after variable declaration."
  | semicolonAfterValue => "Expect ';' after value."
  | semicolonAfterExpression => "Expect ';' after expression."
  | semicolonAfterLoopCondition => "Expect ';' after loop condition."
  | braceAfterBlock => "Expect '\x7d' after block."
  | parenAfterIf => "Expect '(' after 'if'."
  | parenAfterIfCondition => "Expect ')' after if condition."
  | parenAfterWhile => "Expect '(' after 'while'."
  | parenAfterCondition => "Expect ')' after condition."
  | parenAfterFor => "Expect '(' after 'for'."
  | parenAfterForClauses => "Expect ')' after for clauses."
  | parenAfterExpression => "Expect ')' after expression."
  | expression => "Expect expression."
  | assignmentTarget => "Invalid assignment target."
  | endOfExpression => "Expect end of expression."

/-- A reason and the token it is about. -/
structure Complaint where
  reason : Reason
  token : Token
deriving DecidableEq

/-- the error a complaint is -/
def Complaint.toError (c : Complaint) : SyntaxError := SyntaxError.atToken c.token c.reason.message

/-! ## Outcomes -/

/-- Why a parser has no value: it gave up, or it looked for a token past the last. -/
inductive Halt where
  | gaveUp
  | fault (fault : Fault)
deriving DecidableEq

/-- What a parser leaves. -/
@[ext] structure Outcome (α : Type) where
  value : Except Halt α
  rest : List Token
  complaints : List Complaint
  complained : value = .error .gaveUp → complaints ≠ [] := by nofun

/-- A parser of `α`. -/
def Parser (α : Type) : Type := List Token → Outcome α

namespace Parser

variable {α : Type}

instance : Monad Parser where
  pure a := fun ts => { value := .ok a, rest := ts, complaints := [] }
  bind p f := fun ts =>
    match p ts with
    | ⟨.error halt, rest, complaints, complained⟩ =>
      ⟨.error halt, rest, complaints, fun h => complained (by cases h; rfl)⟩
    | ⟨.ok a, rest, complaints, _⟩ =>
      let next := f a rest
      ⟨next.value, next.rest, complaints ++ next.complaints, fun h => by simp [next.complained h]⟩

/-- Stop because there is no next token. -/
def overrun : Parser α := fun ts => { value := .error (.fault .pastLastToken), rest := ts, complaints := [] }

/-- the next token -/
def peek : Parser Token
  | [] => overrun []
  | t :: ts => { value := .ok t, rest := t :: ts, complaints := [] }

/-- Go past the next token, unless it is an end mark. -/
def skip : Parser Unit
  | [] => overrun []
  | t :: ts => { value := .ok (), rest := if t.kind = .endMark then t :: ts else ts, complaints := [] }

/-- Complain about a token and go on. -/
def complain (reason : Reason) (token : Token) : Parser Unit := fun ts =>
  { value := .ok (), rest := ts, complaints := [⟨reason, token⟩] }

/-- Give up, complaining about the next token. -/
def fail (reason : Reason) : Parser α
  | [] => overrun []
  | t :: ts => ⟨.error .gaveUp, t :: ts, [⟨reason, t⟩], fun _ => by simp⟩

/-- Consume the next token if its kind is one of those asked for. -/
def acceptAny (asked : TokenKind → Bool) : Parser (Option Token) := do
  let t ← peek
  if asked t.kind then do
    skip
    pure (some t)
  else pure none

/-- Consume the next token if it is of a kind. -/
def accept (kind : TokenKind) : Parser (Option Token) := acceptAny (· = kind)

/-- Consume the next token, which has to be of a kind. -/
def expect (kind : TokenKind) (reason : Reason) : Parser Token := do
  match ← accept kind with
  | some t => pure t
  | none => fail reason

/-! ## Recovery -/

/-- Declarations and statements that begin with a word begin with one of these, used by the language or not. -/
def startsStatement : TokenKind → Bool
  | .kwClass | .kwFun | .kwVar | .kwFor | .kwIf | .kwWhile | .kwPrint | .kwReturn => true
  | _ => false

/-- Go to the next boundary. A boundary comes after at least one token, and is right behind a semicolon, or right before a word
that starts a statement or an end mark; an end mark that comes next is not gone past. -/
def toBoundary : Parser Unit
  | [] => overrun []
  | t :: ts =>
    if t.kind = .endMark then { value := .ok (), rest := t :: ts, complaints := [] }
    else
      match ts with
      | [] => overrun []
      | u :: _ =>
        if u.kind = .endMark ∨ t.kind = .semicolon ∨ startsStatement u.kind then
          { value := .ok (), rest := ts, complaints := [] }
        else toBoundary ts

/-- Where a parser gives up, go on at the next boundary without a value. -/
def recover (p : Parser α) : Parser (Option α) := fun ts =>
  match p ts with
  | ⟨.ok a, rest, complaints, _⟩ => { value := .ok (some a), rest := rest, complaints := complaints }
  | ⟨.error .gaveUp, rest, complaints, complained⟩ =>
    let next := toBoundary rest
    ⟨next.value.map fun _ => none, next.rest, complaints ++ next.complaints, fun _ => by simp [complained rfl]⟩
  | ⟨.error (.fault fault), rest, complaints, _⟩ =>
    { value := .error (.fault fault), rest := rest, complaints := complaints }

end Parser

/-! ## Whole inputs -/

/-- What parsing a token list gives: a result, the errors found, and the fault it ended in, if any. -/
structure Parse (α : Type) where
  result : α
  errors : List SyntaxError
  fault : Option Fault

/-- Run a parser on a token list. Without tokens there is nothing to parse. -/
def Parser.run {α : Type} (p : Parser α) (tokens : List Token) : Parse (Option α) :=
  if tokens = [] then ⟨none, [], none⟩
  else
    let o := p tokens
    let errors := o.complaints.map Complaint.toError
    match o.value with
    | .ok a => ⟨some a, errors, none⟩
    | .error .gaveUp => ⟨none, errors, none⟩
    | .error (.fault fault) => ⟨none, errors, some fault⟩

end Lox
