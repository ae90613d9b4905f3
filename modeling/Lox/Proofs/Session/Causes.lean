import Lox.Proofs.Eval.Unwinding
import Lox.Proofs.Session.Outcome
import Lox.Proofs.Token.Respelling

/-!
Runtime errors point at the token that caused them.

* `RuntimeError.CausedBy Unbound t e`: the error has the line and the lexeme of the token, which is a name without a
  binding or an operator that got something else than numbers, and the message that says so.
* `Eval.RaisesOnly C x`: the computation raises errors only with `C` in the state it raises them in.

A tree raises errors at its own tokens only, and at these only for the reasons above (`Stmt.execAllOpen_raises`). Where
no scope is left behind an error, a program stops in the state the error is raised in. The scopes that are left on the
way out are only taken away from it, so that a name without a binding has none afterwards.
-/

namespace Lox

/-- The error has its cause in the token: a name without a binding, or an operator that got something else than numbers. -/
inductive RuntimeError.CausedBy (Unbound : String → Prop) (t : Token) : RuntimeError → Prop
  | name : t.kind = .identifier → Unbound t.lexeme →
      CausedBy Unbound t ⟨t.line, t.lexeme, s!"Undefined variable '{t.lexeme}'."⟩
  | operands : t.kind ∈ [.minus, .slash, .star, .plus, .greater, .greaterEqual, .less, .lessEqual] →
      CausedBy Unbound t ⟨t.line, t.lexeme, "Operands must be numbers."⟩
  | operand : t.kind = .minus → CausedBy Unbound t ⟨t.line, t.lexeme, "Operand must be a number."⟩

theorem RuntimeError.CausedBy.imp {Unbound Unbound' : String → Prop} {t : Token} {e : RuntimeError}
    (h : e.CausedBy Unbound t) (himp : ∀ name, Unbound name → Unbound' name) : e.CausedBy Unbound' t := by
  cases h with
  | name hkind hunbound => exact .name hkind (himp _ hunbound)
  | operands hkind => exact .operands hkind
  | operand hkind => exact .operand hkind

namespace Eval

variable {α β : Type} {C : State → RuntimeError → Prop}

/-! ## Computations -/

/-- The computation raises errors only with the given in the state it raises them in. -/
def RaisesOnly (C : State → RuntimeError → Prop) (x : Eval α) : Prop :=
  ∀ s e s', x s = .error (.error e) s' → C s' e

theorem raises_pure (a : α) : RaisesOnly C (pure a) := by
  intro s e s' h
  cases h

theorem RaisesOnly.bind {x : Eval α} {f : α → Eval β} (hx : RaisesOnly C x) (hf : ∀ a, RaisesOnly C (f a)) :
    RaisesOnly C (x >>= f) := by
  intro s e s' h
  rcases bind_eq_iff.1 h with ⟨a, s₁, -, hnext⟩ | ⟨stop, s₁, hfirst, ⟨⟩⟩
  · exact hf a s₁ e s' hnext
  · exact hx s e s' hfirst

theorem raises_ofExcept {r : Except Stop α} (h : ∀ e, r = .error (.error e) → ∀ s, C s e) :
    RaisesOnly C (ofExcept r) := by
  intro s e s' heq
  cases r with
  | ok a => cases heq
  | error stop =>
    cases heq
    exact h e rfl s

theorem raises_define (name : String) (value : Value) : RaisesOnly C (define name value) := by
  intro s e s' h
  replace h : EStateM.bind (ofExcept ((s.env.define name value).mapError Stop.fault)) setEnv s =
    .error (.error e) s' := h
  cases hdefine : s.env.define name value <;> rw [hdefine] at h <;> cases h

theorem raises_print (value : Value) : RaisesOnly C (print value) := by
  intro s e s' h
  obtain ⟨text, htext⟩ := value.format_ok
  unfold print at h
  rw [htext] at h
  cases h

theorem RaisesOnly.inOpenScope {x : Eval Unit} (hx : RaisesOnly C x) : RaisesOnly C (inOpenScope x) := by
  have henter : RaisesOnly C enter := by
    intro s e s' h
    cases h
  refine henter.bind fun _ => hx.bind fun _ s e s' h => ?_
  rcases leave_cases s with ⟨s₁, hleave⟩ | ⟨fault, s₁, hleave⟩ <;> rw [hleave] at h <;> cases h

theorem RaisesOnly.loop {condition : Eval Value} {body : Eval Unit} (hcondition : RaisesOnly C condition)
    (hbody : RaisesOnly C body) (n : Nat) : RaisesOnly C (loop condition body n) := by
  induction n with
  | zero =>
    intro s e s' h
    cases h
  | succ n ih =>
    refine hcondition.bind fun value => ?_
    split
    · exact hbody.bind fun _ => ih
    · exact raises_pure ()

/-! ## Names and operators -/

/-- The error has its cause in a token with a property. -/
def Caused (P : Token → Prop) (s : State) (e : RuntimeError) : Prop :=
  ∃ t, P t ∧ e.CausedBy (fun name => s.env.get? name = .ok none) t

variable {P : Token → Prop}

theorem raises_lookup {name : Token} (hname : P name ∧ name.kind = .identifier) :
    RaisesOnly (Caused P) (lookup name) := by
  intro s e s' h
  replace h : ofScopes (s.env.lookup name) s = .error (.error e) s' := h
  unfold Env.lookup at h
  cases hget : s.env.get? name.lexeme with
  | error fault => rw [hget] at h; cases h
  | ok found =>
    rw [hget] at h
    cases found with
    | some value => cases h
    | none =>
      cases h
      exact ⟨name, hname.1, .name hname.2 hget⟩

theorem raises_assign {name : Token} (hname : P name ∧ name.kind = .identifier) (value : Value) :
    RaisesOnly (Caused P) (assign name value) := by
  intro s e s' h
  replace h : EStateM.bind (ofScopes (s.env.assign name value)) setEnv s = .error (.error e) s' := h
  unfold Env.assign at h
  cases hassign : s.env.assign? name.lexeme value with
  | error fault => rw [hassign] at h; cases h
  | ok found =>
    rw [hassign] at h
    cases found with
    | some env => cases h
    | none =>
      cases h
      exact ⟨name, hname.1, .name hname.2 (Env.get?_of_assign? hassign)⟩

/-- the kinds of the operators on numbers -/
theorem mem_of_arithmetic? {kind : TokenKind} {f : Float → Float → Value} (h : arithmetic? kind = some f) :
    kind ∈ [.minus, .slash, .star, .plus, .greater, .greaterEqual, .less, .lessEqual] := by
  cases kind <;> first | decide | cases h

theorem raises_applyUnary {operator : Token} (hoperator : P operator) (a : Value) :
    RaisesOnly (Caused P) (ofExcept (applyUnary operator a)) := by
  refine raises_ofExcept fun e h s => ?_
  unfold applyUnary at h
  split at h
  · cases h
  · rename_i hkind
    split at h <;> cases h
    exact ⟨operator, hoperator, .operand hkind⟩
  · cases h

theorem raises_applyBinary {operator : Token} (hoperator : P operator) (a b : Value) :
    RaisesOnly (Caused P) (ofExcept (applyBinary operator a b)) := by
  refine raises_ofExcept fun e h s => ?_
  unfold applyBinary at h
  split at h
  · rename_i f hf
    split at h <;> cases h
    exact ⟨operator, hoperator, .operands (mem_of_arithmetic? hf)⟩
  · split at h <;> cases h

theorem raises_decidedBy (operator : Token) (a : Value) :
    RaisesOnly (Caused P) (ofExcept (decidedBy operator a)) := by
  refine raises_ofExcept fun e h s => ?_
  unfold decidedBy at h
  split at h <;> cases h

end Eval

open Eval

/-! ## Trees -/

section Trees

variable {P : Token → Prop}

/-- An expression raises errors at its own names and operators only. -/
theorem Expr.eval_raises {e : Expr} (h : e.MadeOf (fun t => P t ∧ t.kind = .identifier) P) :
    RaisesOnly (Caused P) e.eval := by
  induction e with
  | literal value => exact raises_pure value
  | reference name => exact raises_lookup h
  | assign name value ih => exact (ih h.2).bind fun v => (raises_assign h.1 v).bind fun _ => raises_pure v
  | unary operator operand ih => exact (ih h.2).bind fun a => raises_applyUnary h.1 a
  | binary left operator right ihleft ihright =>
    exact (ihleft h.2.1).bind fun a => (ihright h.2.2).bind fun b => raises_applyBinary h.1 a b
  | logical left operator right ihleft ihright =>
    refine (ihleft h.2.1).bind fun a => (raises_decidedBy operator a).bind fun decided => ?_
    split
    · exact raises_pure a
    · exact ihright h.2.2
  | group inner ih => exact ih h

mutual

theorem Stmt.execOpen_raises (fuel : Nat) : ∀ s : Stmt, s.MadeOf (fun t => P t ∧ t.kind = .identifier) P →
    RaisesOnly (Caused P) (s.execOpen fuel)
  | .expression value, h => by
    rw [Stmt.execOpen]
    exact (Expr.eval_raises h).bind fun _ => raises_pure ()
  | .print value, h => by
    rw [Stmt.execOpen]
    exact (Expr.eval_raises h).bind raises_print
  | .declare name none, _ => by
    rw [Stmt.execOpen]
    exact raises_define name.lexeme .nil
  | .declare name (some value), h => by
    rw [Stmt.execOpen]
    exact (Expr.eval_raises h.2).bind (raises_define name.lexeme)
  | .block body, h => by
    rw [Stmt.execOpen]
    exact (Stmt.execAllOpen_raises fuel body h).inOpenScope
  | .branch condition yes no, h => by
    rw [Stmt.execOpen]
    refine (Expr.eval_raises h.1).bind fun value => ?_
    split
    · exact Stmt.execOpen_raises fuel yes h.2.1
    · exact Stmt.execElseOpen_raises fuel no h.2.2
  | .loop condition body, h => by
    rw [Stmt.execOpen]
    exact (Expr.eval_raises h.1).loop (Stmt.execOpen_raises fuel body h.2) fuel

theorem Stmt.execElseOpen_raises (fuel : Nat) : ∀ no : Option Stmt,
    Stmt.ElseMadeOf (fun t => P t ∧ t.kind = .identifier) P no → RaisesOnly (Caused P) (Stmt.execElseOpen fuel no)
  | none, _ => by
    rw [Stmt.execElseOpen]
    exact raises_pure ()
  | some s, h => by
    rw [Stmt.execElseOpen]
    exact Stmt.execOpen_raises fuel s h

/-- Statements raise errors at their own names and operators only. -/
theorem Stmt.execAllOpen_raises (fuel : Nat) : ∀ ss : List Stmt,
    Stmt.AllMadeOf (fun t => P t ∧ t.kind = .identifier) P ss → RaisesOnly (Caused P) (Stmt.execAllOpen fuel ss)
  | [], _ => by
    rw [Stmt.execAllOpen]
    exact raises_pure ()
  | s :: rest, h => by
    rw [Stmt.execAllOpen]
    exact (Stmt.execOpen_raises fuel s h.1).bind fun _ => Stmt.execAllOpen_raises fuel rest h.2

end

end Trees

/-! ## Texts -/

/-- the kinds of tokens that no error of a running program is about: comparisons of any values, negations, logical
operators and literals -/
def blameless : List TokenKind :=
  [.equalEqual, .bangEqual, .bang, .kwAnd, .kwOr, .number, .string, .kwTrue, .kwFalse, .kwNil]

/-- The error has its cause in a token of the text. If this is a name, then no scope binds it where the error is raised,
and none does afterwards. No token of a blameless kind has the lexeme of the error. -/
def RuntimeError.HasCause (source : String) (raised after : Env) (e : RuntimeError) : Prop :=
  (∃ t ∈ (scan source).tokens, e.CausedBy (fun name => raised.Unbound name ∧ after.Unbound name) t) ∧
  ∀ u ∈ (scan source).tokens, u.kind ∈ blameless → u.lexeme ≠ e.lexeme

theorem RuntimeError.CausedBy.kind_notMem {Unbound : String → Prop} {t : Token} {e : RuntimeError}
    (h : e.CausedBy Unbound t) : e.lexeme = t.lexeme ∧ t.kind ∉ .endMark :: blameless := by
  cases h with
  | name hkind _ => exact ⟨rfl, by rw [hkind]; decide⟩
  | operands hkind =>
    have hnotMem : ∀ kind ∈ [TokenKind.minus, .slash, .star, .plus, .greater, .greaterEqual, .less, .lessEqual],
        kind ∉ .endMark :: blameless := by decide
    exact ⟨rfl, hnotMem _ hkind⟩
  | operand hkind => exact ⟨rfl, by rw [hkind]; decide⟩

/-- The lexeme of an error is not that of a token it cannot be about, as a lexeme belongs to one kind. -/
theorem RuntimeError.CausedBy.hasCause {source : String} {raised after : Env} {t : Token} {e : RuntimeError}
    (h : e.CausedBy (fun name => raised.Unbound name ∧ after.Unbound name) t) (ht : t ∈ (scan source).tokens) :
    e.HasCause source raised after := by
  refine ⟨⟨t, ht, h⟩, fun u hu hkind heq => ?_⟩
  obtain ⟨hlexeme, hnotMem⟩ := h.kind_notMem
  rw [List.mem_cons, not_or] at hnotMem
  have hmark : u.kind ≠ .endMark := by
    intro hmark
    rw [hmark] at hkind
    exact absurd hkind (by decide)
  have halike := (spelled_of_mem_scan ht hnotMem.1).anywhere (spelled_of_mem_scan hu hmark) (heq.trans hlexeme)
  exact hnotMem.2 (halike.1 ▸ hkind)

namespace Run

variable {α : Type} {source : String} {e : RuntimeError}

theorem exists_of_result_runtime {x : Eval α} {env : Env}
    (h : (ofEval x env).reported.result = .error (.runtime e)) :
    ∃ s, x ⟨env, #[]⟩ = .error (.error e) s ∧ (ofEval x env).reported.env = s.env.reset := by
  unfold ofEval at h ⊢
  cases hend : x ⟨env, #[]⟩ with
  | ok a s => rw [hend] at h; cases h
  | error stop s =>
    rw [hend] at h
    cases stop with
    | error e' =>
      cases h
      exact ⟨s, rfl, rfl⟩
    | fault f => cases h
    | outOfFuel => cases h

/-- The error of a run has its cause where it is raised, if the run is an unwinding. -/
theorem hasCause_of_unwinds {x y : Eval α} (hxy : Unwinds x y)
    (hy : RaisesOnly (Caused (· ∈ (scan source).tokens)) y) {env : Env} (henv : env.Global)
    (h : (ofEval x env).reported.result = .error (.runtime e)) :
    ∃ s, y ⟨env, #[]⟩ = .error (.error e) s ∧ e.HasCause source s.env (ofEval x env).reported.env := by
  obtain ⟨f, rfl⟩ := henv.exists_frame
  obtain ⟨s, hx, hafter⟩ := exists_of_result_runtime h
  have hend := hxy [f] #[] (by simp)
  rw [hx] at hend
  generalize hraised : y ⟨.ofStack [f], #[]⟩ = r at hend
  cases hend with
  | @error _ above fs printed hlength =>
    obtain ⟨g, rfl⟩ := List.length_eq_one_iff.1 hlength
    refine ⟨_, rfl, ?_⟩
    obtain ⟨t, ht, hcause⟩ := hy _ _ _ hraised
    refine RuntimeError.CausedBy.hasCause (hcause.imp fun name hname => ?_) ht
    have hbinds := Env.binds_eq_false_of_get? (by simp) hname
    refine ⟨Env.unbound_ofStack hbinds, ?_⟩
    -- of all scopes the global one is left
    rw [hafter]
    show (Env.ofStack [g]).reset.Unbound name
    rw [Env.reset_ofStack]
    exact Env.unbound_ofStack fun f hf => hbinds f (List.mem_append_right _ hf)

end Run

/-- **Runtime errors point at their cause.** In every environment that calls can leave, let a text fail with a runtime
error, as a program or as an expression. The error has the line and the lexeme of a token of the text, and this is either
a name that no scope binds where the error is raised, and none afterwards, or an operator on numbers, and the message says
so. The place where the error is raised is the end of the program when no scope is left behind an error. No error is
about an operator on any values, a logical operator or a literal. -/
theorem runtime_errors_have_causes {env : Env} (henv : env.Reachable) (source : String) :
    (∀ fuel e, (execute fuel source env).result = .error (.runtime e) → ∃ program s, WholeProgram source program ∧
      Stmt.execAllOpen fuel program ⟨env, #[]⟩ = .error (.error e) s ∧
      e.HasCause source s.env (execute fuel source env).env) ∧
    ∀ e, (evaluate source env).result = .error (.runtime e) → ∃ tree s, WholeExpression source tree ∧
      tree.eval ⟨env, #[]⟩ = .error (.error e) s ∧ e.HasCause source s.env (evaluate source env).env := by
  have hserves : ∀ t ∈ (scan source).tokens,
      t.Serves (fun t => t ∈ (scan source).tokens ∧ t.kind = .identifier) (· ∈ (scan source).tokens) :=
    fun t ht => ⟨fun hkind => ⟨ht, hkind⟩, ht⟩
  refine ⟨fun fuel e h => ?_, fun e h => ?_⟩
  · by_cases herrors : (parseProgram source).errors = []
    · have hwhole := wholeProgram_of_errors_eq_nil herrors
      rw [execute_of_errors_eq_nil fuel herrors] at h ⊢
      obtain ⟨s, hraised, hcause⟩ := Run.hasCause_of_unwinds (Stmt.execAll_unwinds fuel _)
        (Stmt.execAllOpen_raises fuel _ (hwhole.madeOf hserves)) henv.global h
      exact ⟨_, s, hwhole, hraised, hcause⟩
    · rw [execute_of_errors_ne_nil fuel herrors] at h
      cases h
  · by_cases herrors : (parseExpression source).errors = []
    · obtain ⟨tree, htree, hwhole⟩ := wholeExpression_of_errors_eq_nil herrors
      rw [evaluate_of_errors_eq_nil herrors htree] at h ⊢
      obtain ⟨s, hraised, hcause⟩ := Run.hasCause_of_unwinds tree.eval_unwinds
        (Expr.eval_raises (hwhole.madeOf hserves)) henv.global h
      exact ⟨tree, s, hwhole, hraised, hcause⟩
    · rw [evaluate_of_errors_ne_nil herrors] at h
      cases h

/-- In a block a variable is declared and another one, which is bound nowhere, is added to it. As an expression the
negation of a value that is no number. -/
theorem runtime_errors_have_causes_failing_block :
    let source := "\x7b var a = true;\nprint a + b; \x7d"
    let e : RuntimeError := ⟨2, "b", "Undefined variable 'b'."⟩
    let e' : RuntimeError := ⟨1, "-", "Operand must be a number."⟩
    Env.initial.Reachable ∧ (execute 1 source .initial).result = .error (.runtime e) ∧
    (∃ program s, WholeProgram source program ∧
      Stmt.execAllOpen 1 program ⟨.initial, #[]⟩ = .error (.error e) s ∧
      e.HasCause source s.env (execute 1 source .initial).env) ∧
    (evaluate "nil == -nil" .initial).result = .error (.runtime e') ∧
    ∃ tree s, WholeExpression "nil == -nil" tree ∧ tree.eval ⟨.initial, #[]⟩ = .error (.error e') s ∧
      e'.HasCause "nil == -nil" s.env (evaluate "nil == -nil" .initial).env := by
  intro source e e'
  have hexecute : (execute 1 source .initial).result = .error (.runtime e) := by decide +kernel
  have hevaluate : (evaluate "nil == -nil" .initial).result = .error (.runtime e') := by decide +kernel
  exact ⟨.initial, hexecute, (runtime_errors_have_causes .initial source).1 1 e hexecute, hevaluate,
    (runtime_errors_have_causes .initial "nil == -nil").2 e' hevaluate⟩

end Lox
