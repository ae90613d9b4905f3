import Lox.Proofs.Session.Batch

/-!
Layout does not matter. Where the tokens of two texts differ in their lines at most, and the texts have equally many
lexical errors, they are parsed to the same trees, and do the same.

* `SyntaxError.Alike`, `RuntimeError.Alike`: the errors differ in their lines at most.
* `Run.Alike`: the runs give the same and leave the same, with errors that are alike.

Nothing that a parser or a run decides depends on a line: trees that are alike are in lockstep on equal states.
-/

namespace Lox

open Eval

/-! ## Errors -/

/-- The errors of the source differ in their lines at most. -/
structure SyntaxError.Alike (e e' : SyntaxError) : Prop where
  location_eq : e'.location = e.location
  message_eq : e'.message = e.message

/-- The errors of running programs differ in their lines at most. -/
structure RuntimeError.Alike (e e' : RuntimeError) : Prop where
  lexeme_eq : e'.lexeme = e.lexeme
  message_eq : e'.message = e.message

section Errors

variable {α β : Type} {T : Likeness} {A : α → β → Prop} {p : Parse α} {q : Parse β}

theorem Complaint.Alike.toError {c c' : Complaint} (h : c.Alike T c') : c.toError.Alike c'.toError := by
  unfold Complaint.toError SyntaxError.atToken
  rw [h.reason_eq, T.kind_eq h.token, T.lexeme_eq h.token]
  split <;> exact ⟨rfl, rfl⟩

theorem Parse.Alike.syntaxErrors (h : p.Alike T A q) : List.Forall₂ SyntaxError.Alike p.errors q.errors := by
  obtain ⟨complaints, complaints', hcomplaints, herrors, herrors'⟩ := h.errors
  rw [herrors, herrors', List.forall₂_map_left_iff, List.forall₂_map_right_iff]
  exact hcomplaints.imp fun _ _ hc => hc.toError

end Errors

/-- Trees that are alike are printed alike. -/
theorem Expr.Alike.parenthesized_eq {T : Likeness} {e e' : Expr} (h : Expr.Alike T e e') :
    e'.parenthesized = e.parenthesized := by
  induction h with
  | literal value => rfl
  | reference hname => exact T.lexeme_eq hname
  | assign hname _ ih => rw [Expr.parenthesized, Expr.parenthesized, T.lexeme_eq hname, ih]
  | unary hoperator _ ih => rw [Expr.parenthesized, Expr.parenthesized, T.lexeme_eq hoperator, ih]
  | binary _ hoperator _ ihleft ihright =>
    rw [Expr.parenthesized, Expr.parenthesized, T.lexeme_eq hoperator, ihleft, ihright]
  | logical _ hoperator _ ihleft ihright =>
    rw [Expr.parenthesized, Expr.parenthesized, T.lexeme_eq hoperator, ihleft, ihright]
  | group _ ih => rw [Expr.parenthesized, Expr.parenthesized, ih]

/-! ## Runs -/

namespace Run

variable {α : Type}

/-- The results are the same: a value, as many errors of the source, or runtime errors that are alike. -/
inductive ResultAlike : Except Failure α → Except Failure α → Prop
  | ok (a : α) : ResultAlike (.ok a) (.ok a)
  | rejected (count : Nat) : ResultAlike (.error (.rejected count)) (.error (.rejected count))
  | runtime {e e' : RuntimeError} : e.Alike e' → ResultAlike (.error (.runtime e)) (.error (.runtime e'))
  | outOfFuel : ResultAlike (.error .outOfFuel) (.error .outOfFuel)

/-- The runs have the same results, leave the same environment, print the same texts, and report as many errors of the
source, and runtime errors that are alike. -/
structure Alike (run run' : Run α) : Prop where
  result : ResultAlike run.result run'.result
  env_eq : run'.env = run.env
  printed_eq : run'.printed = run.printed
  syntaxErrors : run'.diagnostics.syntaxErrors.length = run.diagnostics.syntaxErrors.length
  runtimeErrors : List.Forall₂ RuntimeError.Alike run.diagnostics.runtimeErrors run'.diagnostics.runtimeErrors

theorem Alike.goesOn_eq {run run' : Run α} (h : run.Alike run') : Call.goesOn run' = Call.goesOn run := by
  have hresult := h.result
  unfold Call.goesOn
  generalize run.result = r at hresult ⊢
  generalize run'.result = r' at hresult ⊢
  cases hresult <;> rfl

theorem alike_rejected {errors errors' : List SyntaxError} (h : errors'.length = errors.length) (env : Env) :
    (rejected errors env : Run α).Alike (rejected errors' env) := by
  refine ⟨?_, rfl, rfl, h, .nil⟩
  simp only [rejected, h]
  exact .rejected _

/-- Computations that end alike on the same state have runs that are alike, if they do not fault. -/
theorem alike_reported {T : Likeness} {x y : Eval α} {env : Env}
    (h : EndsAlike T (Below #[]) (x ⟨env, #[]⟩) (y ⟨env, #[]⟩)) (hsound : (ofEval x env).Sound) :
    (ofEval x env).reported.Alike (ofEval y env).reported := by
  have hfault := hsound.1
  unfold ofEval at hfault ⊢
  generalize x ⟨env, #[]⟩ = r at h hfault ⊢
  generalize y ⟨env, #[]⟩ = r' at h ⊢
  cases h with
  | @ok a s t hst =>
    obtain ⟨henv, hprinted⟩ := hst
    rw [Array.empty_append] at hprinted
    exact ⟨.ok a, henv, hprinted, rfl, .nil⟩
  | @error stop stop' s t hstop hst =>
    obtain ⟨henv, hprinted⟩ := hst
    rw [Array.empty_append] at hprinted
    cases hstop with
    | error message htoken =>
      have halike : (RuntimeError.atToken _ message).Alike (.atToken _ message) := ⟨T.lexeme_eq htoken, rfl⟩
      exact ⟨.runtime halike, congrArg Env.reset henv, hprinted, rfl, .cons halike .nil⟩
    | unaryOperator htoken => exact absurd rfl (hfault _)
    | fault f => exact absurd rfl (hfault f)
    | outOfFuel => exact ⟨.outOfFuel, henv, hprinted, rfl, .nil⟩

end Run

/-- A text has one run as a program. -/
theorem Executes.unique {source : String} {env : Env} {run run' : Run Unit} (h : Executes source env run)
    (h' : Executes source env run') : run = run' := by
  by_cases herrors : (parseProgram source).errors = []
  · exact (wholeProgram_of_errors_eq_nil herrors).executes_unique h h'
  · obtain ⟨-, fuel, rfl⟩ := h
    obtain ⟨-, fuel', rfl⟩ := h'
    rw [execute_of_errors_ne_nil fuel herrors, execute_of_errors_ne_nil fuel' herrors]

/-! ## Texts with the same tokens -/

section Texts

variable {p q : String} (htokens : List.Forall₂ Likeness.anywhere.Rel (scan p).tokens (scan q).tokens)

include htokens

theorem parse_alike_of_scan :
    (Stmt.parse (scan p).tokens).Alike .anywhere (Stmt.AllAlike .anywhere) (Stmt.parse (scan q).tokens) :=
  Stmt.parse_alike (P := .ofLikeness .anywhere) (fun _ hkind => hkind) ⟨(scan_marked p).2, htokens⟩

theorem parseExpr_alike_of_scan :
    (Expr.parse (scan p).tokens).Alike .anywhere (Option.Rel (Expr.Alike .anywhere)) (Expr.parse (scan q).tokens) :=
  (Expr.wholeParser_paired (P := .ofLikeness .anywhere) (fun _ _ hkind => hkind) _ _).run_alike
    ⟨(scan_marked p).2, htokens⟩ (Nat.le_refl _) (Nat.le_refl _)

variable (herrors : (scan q).errors.length = (scan p).errors.length)

include herrors

theorem length_errors_parseProgram : (parseProgram q).errors.length = (parseProgram p).errors.length := by
  have hparse := (parse_alike_of_scan htokens).syntaxErrors.length_eq
  simp only [parseProgram, List.length_append, herrors, hparse]

theorem length_errors_parseExpression : (parseExpression q).errors.length = (parseExpression p).errors.length := by
  have hparse := (parseExpr_alike_of_scan htokens).syntaxErrors.length_eq
  simp only [parseExpression, List.length_append, herrors, hparse]

variable {env : Env} (henv : env.Global)

include henv

theorem execute_alike (fuel : Nat) : (execute fuel p env).Alike (execute fuel q env) := by
  have hlength := length_errors_parseProgram htokens herrors
  have hnil : (parseProgram q).errors = [] ↔ (parseProgram p).errors = [] := by
    rw [← List.length_eq_zero_iff, hlength, List.length_eq_zero_iff]
  by_cases hp : (parseProgram p).errors = []
  · have hq := hnil.2 hp
    have hknown := (Stmt.parse_safe (scan_marked p).2).2
    rw [execute_of_errors_eq_nil fuel hp, execute_of_errors_eq_nil fuel hq]
    refine Run.alike_reported (T := .anywhere) ?_ (Run.ofEval_sound henv (Stmt.execAll_safe fuel _ hknown))
    exact (lockstep_below .anywhere #[]).execAll (d := 0) fuel (parse_alike_of_scan htokens).result
      (Stmt.allMadeOf_true _) (.inl trivial) _ _ ⟨rfl, by simp⟩
  · have hq := mt hnil.1 hp
    rw [execute_of_errors_ne_nil fuel hp, execute_of_errors_ne_nil fuel hq]
    exact Run.alike_rejected hlength env

theorem evaluate_alike : (evaluate p env).Alike (evaluate q env) := by
  have hlength := length_errors_parseExpression htokens herrors
  have hnil : (parseExpression q).errors = [] ↔ (parseExpression p).errors = [] := by
    rw [← List.length_eq_zero_iff, hlength, List.length_eq_zero_iff]
  by_cases hp : (parseExpression p).errors = []
  · have hq := hnil.2 hp
    obtain ⟨e, he, -⟩ := wholeExpression_of_errors_eq_nil hp
    obtain ⟨e', he', -⟩ := wholeExpression_of_errors_eq_nil hq
    have halike : Option.Rel (Expr.Alike .anywhere) (parseExpression p).result (parseExpression q).result :=
      (parseExpr_alike_of_scan htokens).result
    rw [he, he'] at halike
    cases halike with
    | some halike =>
      have hknown := (Expr.parse_safe (scan_marked p).2).2 e he
      rw [evaluate_of_errors_eq_nil hp he, evaluate_of_errors_eq_nil hq he']
      refine Run.alike_reported (T := .anywhere) ?_ (Run.ofEval_sound henv (Expr.eval_safe hknown))
      exact (lockstep_below .anywhere #[]).eval halike e.madeOf_true 0 _ _ ⟨rfl, by simp⟩
  · have hq := mt hnil.1 hp
    rw [evaluate_of_errors_ne_nil hp, evaluate_of_errors_ne_nil hq]
    exact Run.alike_rejected hlength env

end Texts

/-- **Layout does not matter.** Let the tokens of two texts differ in their lines at most, and let the texts have as many
lexical errors. They are parsed to trees whose tokens differ in their lines at most, with reports that do so too, as
programs and as expressions, and the expressions are printed alike. In every environment that calls can leave, one of
them returns as a program exactly if the other does, their runs are alike, and so are their runs as expressions, which
always return. -/
theorem layout_does_not_matter {p q : String}
    (htokens : List.Forall₂ Likeness.anywhere.Rel (scan p).tokens (scan q).tokens)
    (herrors : (scan q).errors.length = (scan p).errors.length) {env : Env} (henv : env.Reachable) :
    Stmt.AllAlike .anywhere (Stmt.parse (scan p).tokens).result (Stmt.parse (scan q).tokens).result ∧
    List.Forall₂ SyntaxError.Alike (Stmt.parse (scan p).tokens).errors (Stmt.parse (scan q).tokens).errors ∧
    ((∃ run, Executes p env run) ↔ ∃ run, Executes q env run) ∧
    (∀ run run', Executes p env run → Executes q env run' → run.Alike run') ∧
    Option.Rel (Expr.Alike .anywhere) (Expr.parse (scan p).tokens).result (Expr.parse (scan q).tokens).result ∧
    List.Forall₂ SyntaxError.Alike (Expr.parse (scan p).tokens).errors (Expr.parse (scan q).tokens).errors ∧
    (Expr.parse (scan q).tokens).result.map Expr.parenthesized =
      (Expr.parse (scan p).tokens).result.map Expr.parenthesized ∧
    Call.goesOn (evaluate p env) = true ∧ Call.goesOn (evaluate q env) = true ∧
    (evaluate p env).Alike (evaluate q env) := by
  have hprogram := parse_alike_of_scan htokens
  have hexpression := parseExpr_alike_of_scan htokens
  have halike := execute_alike htokens herrors henv.global
  have hgoes : ∀ fuel, Call.goesOn (execute fuel q env) = Call.goesOn (execute fuel p env) :=
    fun fuel => (halike fuel).goesOn_eq
  refine ⟨hprogram.result, hprogram.syntaxErrors, ⟨?_, ?_⟩, ?_, hexpression.result, hexpression.syntaxErrors, ?_,
    evaluate_goesOn henv.global p, evaluate_goesOn henv.global q, evaluate_alike htokens herrors henv.global⟩
  · rintro ⟨_, hreturns, fuel, rfl⟩
    exact ⟨_, (hgoes fuel).trans hreturns, fuel, rfl⟩
  · rintro ⟨_, hreturns, fuel, rfl⟩
    exact ⟨_, (hgoes fuel).symm.trans hreturns, fuel, rfl⟩
  · rintro _ run' ⟨hreturns, fuel, rfl⟩ hrun'
    -- the run of the second text does not depend on its fuel
    have hrun : Executes q env (execute fuel q env) := ⟨(hgoes fuel).trans hreturns, fuel, rfl⟩
    rw [hrun'.unique hrun]
    exact halike fuel
  · have hresult := hexpression.result
    generalize (Expr.parse (scan p).tokens).result = o at hresult ⊢
    generalize (Expr.parse (scan q).tokens).result = o' at hresult ⊢
    cases hresult with
    | none => rfl
    | some h => exact congrArg some h.parenthesized_eq

/-- A program that prints a variable and then fails, and the same on more lines and with a comment. -/
theorem layout_does_not_matter_failing_negation :
    let p := "print a; -a;"
    let q := "print // -a\na\n; -\r\na;"
    let env := (execute 1 "var a;" .initial).env
    List.Forall₂ Likeness.anywhere.Rel (scan p).tokens (scan q).tokens ∧
    (scan q).errors.length = (scan p).errors.length ∧ env.Reachable ∧ Executes p env (execute 1 p env) ∧
    (execute 1 p env).result = .error (.runtime ⟨1, "-", "Operand must be a number."⟩) ∧
    (execute 1 q env).result = .error (.runtime ⟨3, "-", "Operand must be a number."⟩) ∧
    (execute 1 p env).Alike (execute 1 q env) ∧ (evaluate p env).Alike (evaluate q env) := by
  intro p q env
  have hp : (scan p).tokens = [⟨.kwPrint, "print", none, 1⟩, ⟨.identifier, "a", none, 1⟩, ⟨.semicolon, ";", none, 1⟩,
      ⟨.minus, "-", none, 1⟩, ⟨.identifier, "a", none, 1⟩, ⟨.semicolon, ";", none, 1⟩, Token.endOn 1] := by
    decide +kernel
  have hq : (scan q).tokens = [⟨.kwPrint, "print", none, 1⟩, ⟨.identifier, "a", none, 2⟩, ⟨.semicolon, ";", none, 3⟩,
      ⟨.minus, "-", none, 3⟩, ⟨.identifier, "a", none, 4⟩, ⟨.semicolon, ";", none, 4⟩, Token.endOn 4] := by
    decide +kernel
  have htokens : List.Forall₂ Likeness.anywhere.Rel (scan p).tokens (scan q).tokens := by
    rw [hp, hq]
    repeat' constructor
  have herrors : (scan q).errors.length = (scan p).errors.length := by decide +kernel
  have henv : env.Reachable := .execute 1 "var a;" .initial (by decide +kernel)
  have hp : Executes p env (execute 1 p env) := ⟨by decide +kernel, 1, rfl⟩
  have hq : Executes q env (execute 1 q env) := ⟨by decide +kernel, 1, rfl⟩
  obtain ⟨-, -, -, hexecute, -, -, -, -, -, hevaluate⟩ := layout_does_not_matter htokens herrors henv
  exact ⟨htokens, herrors, henv, hp, by decide +kernel, by decide +kernel, hexecute _ _ hp hq, hevaluate⟩

end Lox
