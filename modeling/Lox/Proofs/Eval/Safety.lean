import Lox.Eval
import Lox.Proofs.Env.Arena
import Lox.Proofs.Number.InRange

/-!
Trees whose operators the language has run without a fault.

* `Expr.Known`, `Stmt.Known`: every operator of the tree is one of its place.
* `Eval.Safe x`: on well-formed scopes the computation does not end in a fault, and the scopes it
  leaves, however it ends, are well-formed and as many as it found.

Safety goes through chains, scopes and loops, so that known trees are safe by induction.
-/

namespace Lox

/-! ## Known trees -/

/-- the operators between two values -/
def binaryOperators : List TokenKind :=
  [.minus, .slash, .star, .plus, .greater, .greaterEqual, .less, .lessEqual, .equalEqual, .bangEqual]

/-- The operators of an expression are those of the language. -/
def Expr.Known : Expr → Prop
  | literal _ | reference _ => True
  | assign _ value => value.Known
  | unary operator operand => (operator.kind = .bang ∨ operator.kind = .minus) ∧ operand.Known
  | binary left operator right => operator.kind ∈ binaryOperators ∧ left.Known ∧ right.Known
  | logical left operator right => (operator.kind = .kwOr ∨ operator.kind = .kwAnd) ∧ left.Known ∧
      right.Known
  | group inner => inner.Known

mutual

/-- The operators of a statement are those of the language. -/
def Stmt.Known : Stmt → Prop
  | .expression value | .print value => value.Known
  | .declare _ none => True
  | .declare _ (some value) => value.Known
  | .block body => Stmt.AllKnown body
  | .branch condition yes no => condition.Known ∧ yes.Known ∧ Stmt.ElseKnown no
  | .loop condition body => condition.Known ∧ body.Known

/-- The alternative of a conditional is known, if it has one. -/
def Stmt.ElseKnown : Option Stmt → Prop
  | none => True
  | some s => s.Known

/-- The statements are all known. -/
def Stmt.AllKnown : List Stmt → Prop
  | [] => True
  | s :: rest => s.Known ∧ Stmt.AllKnown rest

end

/-! ## Safe computations -/

namespace Eval

variable {α β : Type}

/-- The scopes of the second state are well-formed, and as many as those of the first. -/
def Keeps (s s' : State) : Prop := s'.env.WellFormed ∧ s'.env.current = s.env.current

/-- An end of a computation that started in a state: no fault, and the scopes kept. -/
def SafeEnd (s : State) : EStateM.Result Stop State α → Prop
  | .ok _ s' => Keeps s s'
  | .error stop s' => (∀ fault, stop ≠ .fault fault) ∧ Keeps s s'

/-- From well-formed scopes the computation ends without a fault and keeps the scopes. -/
def Safe (x : Eval α) : Prop := ∀ s : State, s.env.WellFormed → SafeEnd s (x s)

theorem Keeps.trans {s s' s'' : State} (h : Keeps s s') (h' : Keeps s' s'') : Keeps s s'' :=
  ⟨h'.1, h'.2.trans h.2⟩

theorem safe_pure (a : α) : Safe (pure a) := fun _ hs => ⟨hs, rfl⟩

theorem safe_throw {stop : Stop} (h : ∀ fault, stop ≠ .fault fault) :
    Safe (throw stop : Eval α) :=
  fun _ hs => ⟨h, hs, rfl⟩

theorem Safe.bind {x : Eval α} {f : α → Eval β} (hx : Safe x) (hf : ∀ a, Safe (f a)) :
    Safe (x >>= f) := by
  intro s hs
  have hfirst := hx s hs
  show SafeEnd s (EStateM.bind x f s)
  unfold EStateM.bind
  cases hend : x s with
  | error stop s' =>
    rw [hend] at hfirst
    exact hfirst
  | ok a s' =>
    rw [hend] at hfirst
    have hsecond := hf a s' hfirst.1
    dsimp only
    cases hend' : f a s' with
    | ok b s'' =>
      rw [hend'] at hsecond
      exact hfirst.trans hsecond
    | error stop s'' =>
      rw [hend'] at hsecond
      exact ⟨hsecond.1, hfirst.trans hsecond.2⟩

theorem safe_ofExcept {r : Except Stop α} (h : ∀ fault, r ≠ .error (.fault fault)) :
    Safe (ofExcept r) := by
  cases r with
  | ok a => exact safe_pure a
  | error stop => exact safe_throw fun fault heq => h fault (by rw [heq])

/-! ### Names and texts -/

theorem safe_lookup (name : Token) : Safe (lookup name) := by
  intro s hs
  obtain ⟨result, hresult⟩ := hs.lookup_ok name
  show SafeEnd s (ofScopes (s.env.lookup name) s)
  rw [hresult]
  cases result with
  | ok value => exact ⟨hs, rfl⟩
  | error error => exact ⟨fun fault heq => (by cases heq), hs, rfl⟩

theorem safe_assign (name : Token) (value : Value) : Safe (assign name value) := by
  intro s hs
  show SafeEnd s (EStateM.bind (ofScopes (s.env.assign name value)) setEnv s)
  rcases hs.assign_ok name value with ⟨error, herror⟩ | ⟨env, henv, hwf, hcurrent⟩
  · rw [herror]
    exact ⟨fun fault heq => (by cases heq), hs, rfl⟩
  · rw [henv]
    exact ⟨hwf, hcurrent⟩

theorem safe_define (name : String) (value : Value) : Safe (define name value) := by
  intro s hs
  show SafeEnd s (EStateM.bind (ofExcept ((s.env.define name value).mapError Stop.fault)) setEnv s)
  obtain ⟨env, henv, hwf, hcurrent⟩ := hs.define_ok name value
  rw [henv]
  exact ⟨hwf, hcurrent⟩

theorem safe_print (value : Value) : Safe (print value) := by
  intro s hs
  obtain ⟨text, htext⟩ := value.format_ok
  unfold print
  rw [htext]
  exact ⟨hs, rfl⟩

/-! ### Scopes and loops -/

theorem leave_of_pop {s : State} {env : Env} (h : s.env.pop = .ok env) : leave s = .ok () { s with env := env } := by
  show EStateM.bind (ofExcept (s.env.pop.mapError Stop.fault)) setEnv s = _
  rw [h]
  rfl

theorem leave_of_pop_error {s : State} {fault : Fault} (h : s.env.pop = .error fault) :
    leave s = .error (.fault fault) s := by
  show EStateM.bind (ofExcept (s.env.pop.mapError Stop.fault)) setEnv s = _
  rw [h]
  rfl

theorem leave_eq {s : State} (hs : s.env.WellFormed) {i : Nat} (hi : s.env.current = i + 1) :
    ∃ env, leave s = .ok () { s with env := env } ∧ env.WellFormed ∧ env.current = i := by
  obtain ⟨env, henv, hwf, hcurrent⟩ := hs.pop_ok hi
  exact ⟨env, leave_of_pop henv, hwf, hcurrent⟩

/-- What follows a computation that is run in a scope of its own. -/
theorem inScope_eq (x : Eval Unit) (s : State) : inScope x s =
    match x { s with env := s.env.push } with
    | .ok a s' => EStateM.bind leave (fun _ => pure a) s'
    | .error stop s' => EStateM.bind leave (fun _ => throw stop) s' := by
  show EStateM.bind (attempt x) (fun result => EStateM.bind leave fun _ => ofExcept result) _ = _
  unfold EStateM.bind attempt
  cases x { s with env := s.env.push } <;> rfl

/-- A scope is entered and left again, so that the scopes around it are kept. -/
theorem Safe.inScope {x : Eval Unit} (hx : Safe x) : Safe (inScope x) := by
  intro s hs
  obtain ⟨hpush, hcurrent⟩ := hs.push
  have hinside := hx { s with env := s.env.push } hpush
  rw [inScope_eq]
  cases hend : x { s with env := s.env.push } with
  | ok a s' =>
    rw [hend] at hinside
    obtain ⟨env, hleave, hwf, hsame⟩ := leave_eq hinside.1 (hinside.2.trans hcurrent)
    simp only [EStateM.bind, hleave]
    exact ⟨hwf, hsame⟩
  | error stop s' =>
    rw [hend] at hinside
    obtain ⟨env, hleave, hwf, hsame⟩ := leave_eq hinside.2.1 (hinside.2.2.trans hcurrent)
    simp only [EStateM.bind, hleave]
    exact ⟨hinside.1, hwf, hsame⟩

theorem Safe.loop {condition : Eval Value} {body : Eval Unit} (hcondition : Safe condition)
    (hbody : Safe body) (n : Nat) : Safe (loop condition body n) := by
  induction n with
  | zero => exact safe_throw fun fault heq => by cases heq
  | succ n ih =>
    refine hcondition.bind fun value => ?_
    split
    · exact hbody.bind fun _ => ih
    · exact safe_pure ()

end Eval

/-! ## Operators -/

theorem applyUnary_ne_fault {operator : Token} (h : operator.kind = .bang ∨ operator.kind = .minus)
    (a : Value) (fault : Fault) : applyUnary operator a ≠ .error (.fault fault) := by
  unfold applyUnary
  rcases h with h | h <;> rw [h]
  · simp
  · cases a <;> simp

theorem applyBinary_ne_fault {operator : Token} (h : operator.kind ∈ binaryOperators) (a b : Value)
    (fault : Fault) :
    applyBinary operator a b ≠ .error (.fault fault) := by
  have hall : ∀ kind ∈ binaryOperators,
      (arithmetic? kind).isSome ∨ kind = .equalEqual ∨ kind = .bangEqual := by decide
  unfold applyBinary
  rcases hall _ h with hsome | hkind | hkind
  · obtain ⟨f, hf⟩ := Option.isSome_iff_exists.1 hsome
    rw [hf]
    cases a <;> cases b <;> simp
  · simp [hkind, arithmetic?]
  · simp [hkind, arithmetic?]

theorem decidedBy_ne_fault {operator : Token} (h : operator.kind = .kwOr ∨ operator.kind = .kwAnd)
    (a : Value) (fault : Fault) : decidedBy operator a ≠ .error (.fault fault) := by
  unfold decidedBy
  rcases h with h | h <;> rw [h] <;> simp

/-! ## Expressions and statements -/

open Eval

theorem Expr.eval_safe {e : Expr} (h : e.Known) : Safe e.eval := by
  induction e with
  | literal value => exact safe_pure value
  | reference name => exact safe_lookup name
  | assign name value ih =>
    refine (ih h).bind fun v => ?_
    exact (safe_assign name v).bind fun _ => safe_pure v
  | unary operator operand ih => exact (ih h.2).bind fun a => safe_ofExcept (applyUnary_ne_fault h.1 a)
  | binary left operator right ihleft ihright =>
    refine (ihleft h.2.1).bind fun a => (ihright h.2.2).bind fun b => ?_
    exact safe_ofExcept (applyBinary_ne_fault h.1 a b)
  | logical left operator right ihleft ihright =>
    refine (ihleft h.2.1).bind fun a => ?_
    refine (safe_ofExcept (decidedBy_ne_fault h.1 a)).bind fun decided => ?_
    split
    · exact safe_pure a
    · exact ihright h.2.2
  | group inner ih => exact ih h

mutual

theorem Stmt.exec_safe (fuel : Nat) : ∀ s : Stmt, s.Known → Safe (s.exec fuel)
  | .expression value, h => by
    rw [Stmt.exec]
    exact (Expr.eval_safe h).bind fun _ => safe_pure ()
  | .print value, h => by
    rw [Stmt.exec]
    exact (Expr.eval_safe h).bind safe_print
  | .declare name none, _ => by
    rw [Stmt.exec]
    exact safe_define name.lexeme .nil
  | .declare name (some value), h => by
    rw [Stmt.exec]
    exact (Expr.eval_safe h).bind (safe_define name.lexeme)
  | .block body, h => by
    rw [Stmt.exec]
    exact (Stmt.execAll_safe fuel body h).inScope
  | .branch condition yes no, h => by
    rw [Stmt.exec]
    refine (Expr.eval_safe h.1).bind fun value => ?_
    split
    · exact Stmt.exec_safe fuel yes h.2.1
    · exact Stmt.execElse_safe fuel no h.2.2
  | .loop condition body, h => by
    rw [Stmt.exec]
    exact (Expr.eval_safe h.1).loop (Stmt.exec_safe fuel body h.2) fuel

theorem Stmt.execElse_safe (fuel : Nat) : ∀ no : Option Stmt, Stmt.ElseKnown no →
    Safe (Stmt.execElse fuel no)
  | none, _ => by
    rw [Stmt.execElse]
    exact safe_pure ()
  | some s, h => by
    rw [Stmt.execElse]
    exact Stmt.exec_safe fuel s h

/-- Known statements run without a fault. -/
theorem Stmt.execAll_safe (fuel : Nat) : ∀ ss : List Stmt, Stmt.AllKnown ss →
    Safe (Stmt.execAll fuel ss)
  | [], _ => by
    rw [Stmt.execAll]
    exact safe_pure ()
  | s :: rest, h => by
    rw [Stmt.execAll]
    exact (Stmt.exec_safe fuel s h.1).bind fun _ => Stmt.execAll_safe fuel rest h.2

end

end Lox
