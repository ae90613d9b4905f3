import Lox.Command
import Lox.Proofs.Env.Stack
import Lox.Proofs.Eval.Fuel
import Lox.Proofs.Session.Safety
import Lox.Proofs.Stmt.Recognition
import Lox.Proofs.Stmt.TreeTokens
import Lox.Proofs.Token.Lines

/-!
How calls end. A call on source text that returns has one of three outcomes: the source is rejected,
with all its errors reported and nothing else done; or all of it is run, up to a runtime error that
is reported; or all of it is run, and nothing is reported.

* `Env.Reachable env`: calls one after the other have left the environment.
* `WholeProgram source program`, `WholeExpression source e`: the source has no errors and is the given
  tree, with no token left out.
* `Run.Concludes env Whole run code`: the run has one of the three outcomes, with its exit code.

A parser that gives up has complained, so a program is never run in parts; and what is parsed runs
without a fault, so the scopes are balanced when it ends.
-/

namespace Lox

/-! ## Reachable environments -/

/-- The environments that calls on source text leave, one after the other. -/
inductive Env.Reachable : Env → Prop
  | initial : Reachable .initial
  | execute {env : Env} (fuel : Nat) (source : String) : Reachable env →
      Call.goesOn (Lox.execute fuel source env) = true → Reachable (Lox.execute fuel source env).env
  | evaluate {env : Env} (source : String) : Reachable env →
      Call.goesOn (Lox.evaluate source env) = true → Reachable (Lox.evaluate source env).env

/-- After every call the global scope alone is active. -/
theorem Env.Reachable.global {env : Env} (h : env.Reachable) : env.Global := by
  induction h with
  | initial => exact ⟨Env.initial_wellFormed, rfl⟩
  | execute fuel source _ _ ih => exact (execute_sound ih fuel source).2
  | evaluate source _ _ ih => exact (evaluate_sound ih source).2

theorem Env.Global.depth_eq {env : Env} (h : env.Global) : env.depth = 1 := by
  rw [h.1.depth_eq, h.2]

/-- A global environment is that of one frame. -/
theorem Env.Global.exists_frame {env : Env} (h : env.Global) : ∃ f, env = .ofStack [f] := by
  obtain ⟨fs, hfs, rfl⟩ := h.1.exists_ofStack
  have hlength : fs.length = 1 := by
    have hpos := List.length_pos_iff.2 hfs
    have hcurrent : fs.length - 1 = 0 := h.2
    omega
  obtain ⟨f, rfl⟩ := List.length_eq_one_iff.1 hlength
  exact ⟨f, rfl⟩

/-! ## Whole sources -/

/-- The source text has no lexical error, and all its tokens are declarations with the given trees. -/
def WholeProgram (source : String) (program : List Stmt) : Prop :=
  (scan source).errors = [] ∧ ∃ (ts : List Token) (line : Nat),
    (scan source).tokens = ts ++ [Token.endOn line] ∧ Stmt.Derives (.declarations program) ts

/-- The source text has no lexical error, and all its tokens are an expression with the given tree. -/
def WholeExpression (source : String) (e : Expr) : Prop :=
  (scan source).errors = [] ∧ ∃ (ts : List Token) (line : Nat),
    (scan source).tokens = ts ++ [Token.endOn line] ∧ Expr.Derives .assignment ts e

section Sources

variable {source : String}

/-- Source text without a report is a whole program: the parser has dropped nothing. -/
theorem wholeProgram_of_errors_eq_nil (h : (parseProgram source).errors = []) :
    WholeProgram source (parseProgram source).result := by
  obtain ⟨hscan, hparse⟩ := List.append_eq_nil_iff.1 h
  have hfault := (Stmt.parse_safe (scan_marked source).2).1
  have hwhole : Stmt.parse (scan source).tokens = ⟨(parseProgram source).result, [], none⟩ :=
    Parser.eq_of_errors_eq_nil hparse hfault
  rw [scan_tokens] at hwhole
  exact ⟨hscan, tokensOf source.toList, _, scan_tokens source,
    Stmt.derives_of_parse_eq (fun t => kind_of_mem_tokensOf) hwhole⟩

/-- A whole program is parsed to its trees without a report. -/
theorem WholeProgram.parse_eq {program : List Stmt} (h : WholeProgram source program) :
    parseProgram source = ⟨program, [], none⟩ := by
  obtain ⟨herrors, ts, line, htokens, hderives⟩ := h
  have hparse : Stmt.parse (scan source).tokens = ⟨program, [], none⟩ := by
    rw [htokens]
    exact hderives.parse_eq rfl
  simp only [parseProgram, hparse, herrors, (scan_marked source).1]
  rfl

/-- A whole expression is parsed to its tree without a report. -/
theorem WholeExpression.parse_eq {e : Expr} (h : WholeExpression source e) :
    parseExpression source = ⟨some e, [], none⟩ := by
  obtain ⟨herrors, ts, line, htokens, hderives⟩ := h
  have hparse : Expr.parse (scan source).tokens = ⟨some e, [], none⟩ := by
    rw [htokens]
    exact hderives.parse_eq rfl
  simp only [parseExpression, hparse, herrors, (scan_marked source).1]
  rfl

/-- A whole program is made of the tokens of its source. -/
theorem WholeProgram.madeOf {Name Operator : Token → Prop} {program : List Stmt} (h : WholeProgram source program)
    (hts : ∀ t ∈ (scan source).tokens, t.Serves Name Operator) : Stmt.AllMadeOf Name Operator program := by
  obtain ⟨-, ts, line, htokens, hderives⟩ := h
  rw [htokens, List.forall_mem_append] at hts
  exact hderives.madeOf hts.1

/-- A whole expression is made of the tokens of its source. -/
theorem WholeExpression.madeOf {Name Operator : Token → Prop} {e : Expr} (h : WholeExpression source e)
    (hts : ∀ t ∈ (scan source).tokens, t.Serves Name Operator) : e.MadeOf Name Operator := by
  obtain ⟨-, ts, line, htokens, hderives⟩ := h
  rw [htokens, List.forall_mem_append] at hts
  exact hderives.madeOf hts.1

/-- Source text without a report is a whole expression. -/
theorem wholeExpression_of_errors_eq_nil (h : (parseExpression source).errors = []) :
    ∃ e, (parseExpression source).result = some e ∧ WholeExpression source e := by
  obtain ⟨hscan, hparse⟩ := List.append_eq_nil_iff.1 h
  have hfault := (Expr.parse_safe (scan_marked source).2).1
  rw [scan_tokens] at hparse hfault
  obtain ⟨e, hrun⟩ := Parser.exists_run_eq (by simp) hparse hfault
  refine ⟨e, ?_, hscan, tokensOf source.toList, _, scan_tokens source,
    Expr.derives_of_parse_eq (fun t => kind_of_mem_tokensOf) hrun⟩
  simp only [parseExpression, scan_tokens]
  exact congrArg Parse.result hrun

end Sources

/-! ## Outcomes -/

section Outcomes

variable {α : Type}

/-- How a run that starts in an environment concludes, and its exit code. `Whole` says what the run is
if the source is run at all. -/
inductive Run.Concludes (env : Env) (Whole : Run α → Prop) : Run α → UInt32 → Prop
  /-- There are errors in the source. They are reported and counted, and nothing is done. -/
  | rejected {errors : List SyntaxError} : errors ≠ [] →
      Concludes env Whole ⟨.error (.rejected errors.length), env, #[], ⟨errors, []⟩⟩ 65
  /-- All of the source is run, and fails with an error that is reported. -/
  | failed {e : RuntimeError} {env' : Env} {printed : Array String} :
      Whole ⟨.error (.runtime e), env', printed, ⟨[], [e]⟩⟩ →
      Concludes env Whole ⟨.error (.runtime e), env', printed, ⟨[], [e]⟩⟩ 70
  /-- All of the source is run, and nothing is reported. -/
  | finished {a : α} {env' : Env} {printed : Array String} : Whole ⟨.ok a, env', printed, ⟨[], []⟩⟩ →
      Concludes env Whole ⟨.ok a, env', printed, ⟨[], []⟩⟩ 0

/-- What a run of a tree leaves, where it returns: a result without a report, or one error with its
report. -/
theorem Run.concludes_reported {x : Eval α} {env : Env} {Whole : Run α → Prop}
    (hgoes : Call.goesOn (ofEval x env).reported = true) (hwhole : Whole (ofEval x env).reported) :
    Concludes env Whole (ofEval x env).reported (exitCode (ofEval x env).reported.result) := by
  revert hgoes hwhole
  unfold ofEval
  cases x ⟨env, #[]⟩ with
  | ok a s =>
    intro _ hwhole
    exact .finished hwhole
  | error stop s =>
    cases stop with
    | error e =>
      intro _ hwhole
      exact .failed hwhole
    | fault f =>
      intro hgoes
      cases hgoes
    | outOfFuel =>
      intro hgoes
      cases hgoes

end Outcomes

section Calls

variable {env : Env} {source : String}

theorem execute_of_errors_ne_nil (fuel : Nat) (h : (parseProgram source).errors ≠ []) :
    execute fuel source env = .rejected (parseProgram source).errors env := by
  simp only [execute, parseProgram_fault, if_neg h]

theorem execute_of_errors_eq_nil (fuel : Nat) (h : (parseProgram source).errors = []) :
    execute fuel source env = executeTree fuel (parseProgram source).result env := by
  simp only [execute, parseProgram_fault, if_pos h]

theorem evaluate_of_errors_ne_nil (h : (parseExpression source).errors ≠ []) :
    evaluate source env = .rejected (parseExpression source).errors env := by
  simp only [evaluate, parseExpression_fault, if_neg h]
  cases (parseExpression source).result <;> rfl

theorem evaluate_of_errors_eq_nil {e : Expr} (h : (parseExpression source).errors = [])
    (he : (parseExpression source).result = some e) :
    evaluate source env = (evaluateTree e env).reported := by
  simp only [evaluate, parseExpression_fault, he, if_pos h]

/-- A program that returns has one of the three outcomes. -/
theorem execute_concludes (fuel : Nat) (hgoes : Call.goesOn (execute fuel source env) = true) :
    Run.Concludes env (fun run => ∃ program, WholeProgram source program ∧ run = executeTree fuel program env)
      (execute fuel source env) (exitCode (execute fuel source env).result) := by
  by_cases herrors : (parseProgram source).errors = []
  · rw [execute_of_errors_eq_nil fuel herrors] at hgoes ⊢
    exact Run.concludes_reported hgoes ⟨_, wholeProgram_of_errors_eq_nil herrors, rfl⟩
  · rw [execute_of_errors_ne_nil fuel herrors]
    exact .rejected herrors

/-- An expression always returns. -/
theorem evaluate_goesOn (henv : env.Global) (source : String) : Call.goesOn (evaluate source env) = true := by
  have hfault := (evaluate_sound henv source).1
  by_cases herrors : (parseExpression source).errors = []
  · obtain ⟨e, he, -⟩ := wholeExpression_of_errors_eq_nil herrors
    rw [evaluate_of_errors_eq_nil herrors he] at hfault ⊢
    have hfuel := e.eval_fuelless ⟨env, #[]⟩
    revert hfault
    unfold evaluateTree Run.ofEval
    cases hend : e.eval ⟨env, #[]⟩ with
    | ok a s => exact fun _ => rfl
    | error stop s =>
      cases stop with
      | error err => exact fun _ => rfl
      | fault f => exact fun hfault => absurd rfl (hfault f)
      | outOfFuel => exact absurd hend (hfuel s)
  · rw [evaluate_of_errors_ne_nil herrors]
    rfl

/-- An expression has one of the three outcomes. -/
theorem evaluate_concludes (henv : env.Global) (source : String) :
    Run.Concludes env (fun run => ∃ e, WholeExpression source e ∧ run = (evaluateTree e env).reported)
      (evaluate source env) (exitCode (evaluate source env).result) := by
  have hgoes := evaluate_goesOn henv source
  by_cases herrors : (parseExpression source).errors = []
  · obtain ⟨e, he, hwhole⟩ := wholeExpression_of_errors_eq_nil herrors
    rw [evaluate_of_errors_eq_nil herrors he] at hgoes ⊢
    exact Run.concludes_reported hgoes ⟨e, hwhole, rfl⟩
  · rw [evaluate_of_errors_ne_nil herrors]
    exact .rejected herrors

end Calls

/-- **Calls have three outcomes.** In every environment that calls on source text can leave, a program
that returns, and every expression, is rejected with all its errors reported and nothing done, or is
run as a whole and reports the one error it fails with, or is run as a whole and reports nothing.
Afterwards the global scope alone is active. The exit code of a script tells the three apart. -/
theorem calls_conclude :
    (∀ env : Env, env.Reachable → ∀ source : String,
      (∀ fuel : Nat, Call.goesOn (execute fuel source env) = true →
        Run.Concludes env
          (fun run => ∃ program, WholeProgram source program ∧ run = executeTree fuel program env)
          (execute fuel source env) (exitCode (execute fuel source env).result) ∧
        (execute fuel source env).env.depth = 1) ∧
      Run.Concludes env (fun run => ∃ e, WholeExpression source e ∧ run = (evaluateTree e env).reported)
        (evaluate source env) (exitCode (evaluate source env).result) ∧
      (evaluate source env).env.depth = 1) ∧
    ∀ (path source : String) (contents : Except Unreadable ByteArray), contents.bind decodeText = .ok source →
      Call.goesOn (execute ample source .initial) = true →
      Run.Concludes .initial
        (fun run => ∃ program, WholeProgram source program ∧ run = executeTree ample program .initial)
        (execute ample source .initial) (runScript path contents).code := by
  refine ⟨?_, ?_⟩
  · intro env henv source
    have hglobal := henv.global
    refine ⟨fun fuel hgoes => ?_, evaluate_concludes hglobal source, ?_⟩
    · exact ⟨execute_concludes fuel hgoes, (execute_sound hglobal fuel source).2.depth_eq⟩
    · exact (evaluate_sound hglobal source).2.depth_eq
  · intro path source contents hcontents hgoes
    have hcode : (runScript path contents).code = exitCode (execute ample source .initial).result := by
      simp only [runScript, hcontents, runSource]
    rw [hcode]
    exact execute_concludes ample hgoes

/-- In an environment with a variable, a block that prints it and then negates it; and a script that
is not a program. -/
theorem calls_conclude_failing_block :
    let env := (execute 1 "var a;" .initial).env
    let source := "\x7b print a;\n-a; \x7d"
    env.Reachable ∧ Call.goesOn (execute 1 source env) = true ∧
    Run.Concludes env (fun run => ∃ program, WholeProgram source program ∧ run = executeTree 1 program env)
      (execute 1 source env) 70 ∧
    (execute 1 source env).env.depth = 1 ∧
    Run.Concludes env (fun run => ∃ e, WholeExpression source e ∧ run = (evaluateTree e env).reported)
      (evaluate source env) 65 ∧
    (Except.ok "a".toUTF8).bind decodeText = .ok "a" ∧
    Call.goesOn (execute ample "a" .initial) = true ∧ (runScript "a.lox" (.ok "a".toUTF8)).code = 65 ∧
    Run.Concludes .initial
      (fun run => ∃ program, WholeProgram "a" program ∧ run = executeTree ample program .initial)
      (execute ample "a" .initial) (runScript "a.lox" (.ok "a".toUTF8)).code := by
  intro env source
  have henv : env.Reachable := .execute 1 "var a;" .initial (by decide +kernel)
  have hgoes : Call.goesOn (execute 1 source env) = true := by decide +kernel
  have hcode : exitCode (execute 1 source env).result = 70 := by decide +kernel
  have hcode' : exitCode (evaluate source env).result = 65 := by decide +kernel
  have hcontents : (Except.ok "a".toUTF8).bind decodeText = .ok "a" := by decide +kernel
  have hscript : Call.goesOn (execute ample "a" .initial) = true := by decide +kernel
  obtain ⟨hcalls, hscripts⟩ := calls_conclude
  obtain ⟨hexecute, hevaluate, -⟩ := hcalls env henv source
  obtain ⟨hconcludes, hdepth⟩ := hexecute 1 hgoes
  rw [hcode] at hconcludes
  rw [hcode'] at hevaluate
  exact ⟨henv, hgoes, hconcludes, hdepth, hevaluate, hcontents, hscript, by decide +kernel,
    hscripts "a.lox" "a" _ hcontents hscript⟩

end Lox
