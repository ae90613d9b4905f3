import Lox.Proofs.Session.Batch
import Lox.Proofs.Token.Respelling

/-!
An expression as a statement. Source text that is an expression by itself is one of a statement too: with a semicolon on
the line below it, and with `print` in front as well.

* `Eval.Quiet x`: the computation prints nothing.

The tokens around the expression stay apart from it, so that the statement has the same tree in it
(`WholeExpression.statement`, `WholeExpression.printed`). Running the statement is evaluating the tree, which is quiet, and
then printing its value.
-/

namespace Lox

open Eval

/-! ## Expressions print nothing -/

namespace Eval

variable {α β : Type}

/-- However the computation ends, it has printed nothing. -/
def Quiet (x : Eval α) : Prop := ∀ s, (endState (x s)).printed = s.printed

theorem quiet_pure (a : α) : Quiet (pure a) := fun _ => rfl

theorem quiet_ofExcept (r : Except Stop α) : Quiet (ofExcept r) := by
  intro s
  cases r <;> rfl

theorem Quiet.bind {x : Eval α} {f : α → Eval β} (hx : Quiet x) (hf : ∀ a, Quiet (f a)) : Quiet (x >>= f) := by
  intro s
  have hfirst := hx s
  show (endState (EStateM.bind x f s)).printed = s.printed
  unfold EStateM.bind
  cases hend : x s with
  | error stop s' =>
    rw [hend] at hfirst
    exact hfirst
  | ok a s' =>
    rw [hend] at hfirst
    exact (hf a s').trans hfirst

theorem quiet_lookup (name : Token) : Quiet (lookup name) := by
  intro s
  show (endState (ofScopes (s.env.lookup name) s)).printed = s.printed
  rcases s.env.lookup name with fault | (error | value) <;> rfl

theorem quiet_assign (name : Token) (value : Value) : Quiet (assign name value) := by
  intro s
  show (endState (EStateM.bind (ofScopes (s.env.assign name value)) setEnv s)).printed = s.printed
  rcases s.env.assign name value with fault | (error | env) <;> rfl

end Eval

theorem Expr.eval_quiet (e : Expr) : Quiet e.eval := by
  induction e with
  | literal value => exact quiet_pure value
  | reference name => exact quiet_lookup name
  | assign name value ih => exact ih.bind fun v => (quiet_assign name v).bind fun _ => quiet_pure v
  | unary operator operand ih => exact ih.bind fun a => quiet_ofExcept (applyUnary operator a)
  | binary left operator right ihleft ihright =>
    exact ihleft.bind fun a => ihright.bind fun b => quiet_ofExcept (applyBinary operator a b)
  | logical left operator right ihleft ihright =>
    refine ihleft.bind fun a => (quiet_ofExcept (decidedBy operator a)).bind fun decided => ?_
    split
    · exact quiet_pure a
    · exact ihright
  | group inner ih => exact ih

/-! ## The source of the statements -/

/-- A word and a space in front of a text are a span each. -/
theorem Span.cut_word_append {word : List Char} (h : Rule.Matches .word word) (text : List Char) :
    cut (word ++ ' ' :: text) = ⟨.rule .word, word⟩ :: ⟨.rule .blank, [' ']⟩ :: cut text := by
  have hword := munches_before_blank h (by simp) (by decide : isBlank ' ' = true) text
  have hblank := munches_blank (by decide : isBlank ' ' = true) text
  rw [← @cut_of_munches ⟨.rule .blank, [' ']⟩ text hblank]
  exact @cut_of_munches ⟨.rule .word, word⟩ (' ' :: text) hword

/-- `print` in front of a text is one token more. -/
theorem scan_print {source : String} (h : (scan source).errors = []) : (scan ("print " ++ source)).errors = [] ∧
    tokensOf ("print " ++ source).toList = ⟨.kwPrint, "print", none, 1⟩ :: tokensOf source.toList := by
  have hword : Rule.Matches .word "print".toList := .word (by decide) (List.all_eq_true.1 (by decide))
  have hcut := Span.cut_word_append hword source.toList
  have hlist : ("print " ++ source).toList = "print".toList ++ ' ' :: source.toList := by simp
  rw [scan_eq] at h ⊢
  rw [hlist]
  refine ⟨Span.errors_eq_nil_iff.2 ?_, ?_⟩
  · rw [hcut]
    exact List.forall_mem_cons.2 ⟨⟨_, rfl⟩, List.forall_mem_cons.2 ⟨⟨_, rfl⟩, Span.errors_eq_nil_iff.1 h⟩⟩
  · have htoken : Span.token? 1 ⟨.rule .word, "print".toList⟩ = some ⟨.kwPrint, "print", none, 1⟩ := by decide
    unfold tokensOf
    rw [hcut, Span.place, Span.place, List.filterMap_cons, htoken]
    rfl

/-- A semicolon on the line below a text is one token more. -/
theorem scan_semicolon {source : String} (h : (scan source).errors = []) :
    (scan (source ++ "\n" ++ ";")).errors = [] ∧ tokensOf (source ++ "\n" ++ ";").toList =
      tokensOf source.toList ++ [⟨.semicolon, ";", none, source.toList.count '\n' + 2⟩] := by
  obtain ⟨herrors, htokens⟩ := scan_joined h (by decide +kernel : (scan ";").errors = [])
  have hsemicolon : tokensOf ";".toList = [⟨.semicolon, ";", none, 1⟩] := by decide +kernel
  refine ⟨herrors, ?_⟩
  rw [htokens, hsemicolon]
  simp only [List.map_cons, List.map_nil, Token.lowered]
  rw [Nat.add_comm 1]

theorem Stmt.Derives.alone {s : Stmt} {ending : Ending} {ts : List Token} (h : Derives (.statement s ending) ts) :
    Derives (.declarations [s]) ts := by
  rw [← List.append_nil ts]
  exact .cons (.statement h) .nil

section Sources

variable {source : String} {e : Expr} (h : WholeExpression source e)

include h

theorem WholeExpression.derives : Expr.Derives .assignment (tokensOf source.toList) e := by
  obtain ⟨-, ts, line, htokens, hderives⟩ := h
  obtain rfl : ts = tokensOf source.toList := (List.append_inj' (htokens.symm.trans (scan_tokens source)) rfl).1
  exact hderives

/-- An expression with a semicolon below it is the statement of that expression. -/
theorem WholeExpression.statement : WholeProgram (source ++ "\n" ++ ";") [.expression e] := by
  obtain ⟨herrors, htokens⟩ := scan_semicolon h.1
  refine ⟨herrors, _, _, scan_tokens _, ?_⟩
  rw [htokens]
  exact Stmt.Derives.alone (.expression h.derives rfl)

/-- An expression with `print` in front and a semicolon below it is the statement that prints it. -/
theorem WholeExpression.printed : WholeProgram ("print " ++ source ++ "\n" ++ ";") [.print e] := by
  obtain ⟨herrors, hprint⟩ := scan_print h.1
  obtain ⟨herrors, htokens⟩ := scan_semicolon herrors
  refine ⟨herrors, _, _, scan_tokens _, ?_⟩
  rw [htokens, hprint]
  exact Stmt.Derives.alone (.print rfl h.derives rfl)

end Sources

/-! ## Runs of the statements -/

theorem Value.format_eq_display (v : Value) : v.format = .ok v.display := by
  obtain ⟨text, htext⟩ := v.format_ok
  rw [htext, display, htext]
  rfl

section Runs

variable {source : String} {program : List Stmt} {e : Expr} {env : Env}

/-- A program that ends in the same way with any fuel has one run. -/
theorem WholeProgram.executes_iff_eq {r : EStateM.Result Stop State Unit} (h : WholeProgram source program)
    (hprogram : ∀ fuel, Stmt.execAll fuel program ⟨env, #[]⟩ = r) (hr : Returned r) (run : Run Unit) :
    Executes source env run ↔ run = Run.ofEnd r := by
  rw [h.executes_iff]
  constructor
  · rintro ⟨_, ⟨-, fuel, rfl⟩, rfl⟩
    exact congrArg Run.ofEnd (hprogram fuel)
  · rintro rfl
    exact ⟨r, ⟨hr, 0, hprogram 0⟩, rfl⟩

theorem execAll_statement_of_ok {s s' : State} {v : Value} (h : e.eval s = .ok v s') (fuel : Nat) :
    Stmt.execAll fuel [.expression e] s = .ok () s' := by
  rw [Stmt.execAll_singleton, Stmt.exec]
  exact bind_eq_iff.2 (.inl ⟨v, s', h, rfl⟩)

theorem execAll_statement_of_error {s s' : State} {stop : Stop} (h : e.eval s = .error stop s') (fuel : Nat) :
    Stmt.execAll fuel [.expression e] s = .error stop s' := by
  rw [Stmt.execAll_singleton, Stmt.exec]
  exact bind_eq_iff.2 (.inr ⟨stop, s', h, rfl⟩)

theorem execAll_print_of_ok {s s' : State} {v : Value} (h : e.eval s = .ok v s') (fuel : Nat) :
    Stmt.execAll fuel [.print e] s = .ok () { s' with printed := s'.printed.push v.display } := by
  have hprint : print v s' = .ok () { s' with printed := s'.printed.push v.display } := by
    unfold print
    rw [v.format_eq_display]
    rfl
  rw [Stmt.execAll_singleton, Stmt.exec]
  exact bind_eq_iff.2 (.inl ⟨v, s', h, hprint⟩)

theorem execAll_print_of_error {s s' : State} {stop : Stop} (h : e.eval s = .error stop s') (fuel : Nat) :
    Stmt.execAll fuel [.print e] s = .error stop s' := by
  rw [Stmt.execAll_singleton, Stmt.exec]
  exact bind_eq_iff.2 (.inr ⟨stop, s', h, rfl⟩)

end Runs

/-- **An expression runs as a statement.** Let a text be an expression, without any error. In every environment that
calls can leave, it has a value or a runtime error, and with a semicolon on the line below it, it returns as a program,
with `print` in front too. If it has a value, both programs leave the environment that the expression leaves, without a
report; the first prints nothing, and the second the value, on a line. If it has an error, both programs fail with
the same error, report it once, and leave the same environment; nothing is printed. There are no other runs. -/
theorem expression_runs_as_statement {source : String} (h : (parseExpression source).errors = []) {env : Env}
    (henv : env.Reachable) :
    let run := evaluate source env
    ((∃ v, run.result = .ok v) ∨ ∃ e, run.result = .error (.runtime e)) ∧
    (∃ r, Executes (source ++ "\n" ++ ";") env r) ∧ (∃ r, Executes ("print " ++ source ++ "\n" ++ ";") env r) ∧
    (∀ v, run.result = .ok v →
      run = ⟨.ok v, run.env, #[], ⟨[], []⟩⟩ ∧
      (∀ r, Executes (source ++ "\n" ++ ";") env r ↔ r = ⟨.ok (), run.env, #[], ⟨[], []⟩⟩) ∧
      (∀ r, Executes ("print " ++ source ++ "\n" ++ ";") env r ↔
        r = ⟨.ok (), run.env, #[v.display], ⟨[], []⟩⟩) ∧
      Sink.accepting.received #[v.display] = v.display ++ "\n") ∧
    ∀ e, run.result = .error (.runtime e) →
      run = ⟨.error (.runtime e), run.env, #[], ⟨[], [e]⟩⟩ ∧
      (∀ r, Executes (source ++ "\n" ++ ";") env r ↔
        r = ⟨.error (.runtime e), run.env, #[], ⟨[], [e]⟩⟩) ∧
      ∀ r, Executes ("print " ++ source ++ "\n" ++ ";") env r ↔
        r = ⟨.error (.runtime e), run.env, #[], ⟨[], [e]⟩⟩ := by
  obtain ⟨e, he, hwhole⟩ := wholeExpression_of_errors_eq_nil h
  have hgoes := evaluate_goesOn henv.global source
  have hquiet := e.eval_quiet ⟨env, #[]⟩
  rw [evaluate_of_errors_eq_nil h he] at hgoes ⊢
  unfold evaluateTree Run.ofEval at hgoes ⊢
  cases hend : e.eval ⟨env, #[]⟩ with
  | ok v s =>
    obtain ⟨env', printed⟩ := s
    rw [hend] at hquiet
    obtain rfl : printed = #[] := hquiet
    have hstatement := hwhole.statement.executes_iff_eq (execAll_statement_of_ok hend) trivial
    have hprint := hwhole.printed.executes_iff_eq (execAll_print_of_ok hend) trivial
    refine ⟨.inl ⟨v, rfl⟩, ⟨_, (hstatement _).2 rfl⟩, ⟨_, (hprint _).2 rfl⟩, ?_, nofun⟩
    rintro _ ⟨⟩
    exact ⟨rfl, hstatement, hprint, by simp [Sink.received]⟩
  | error stop s =>
    obtain ⟨env', printed⟩ := s
    rw [hend] at hquiet hgoes
    obtain rfl : printed = #[] := hquiet
    cases stop with
    | error err =>
      have hstatement := hwhole.statement.executes_iff_eq (execAll_statement_of_error hend) trivial
      have hprint := hwhole.printed.executes_iff_eq (execAll_print_of_error hend) trivial
      refine ⟨.inr ⟨err, rfl⟩, ⟨_, (hstatement _).2 rfl⟩, ⟨_, (hprint _).2 rfl⟩, nofun, ?_⟩
      rintro _ ⟨⟩
      exact ⟨rfl, hstatement, hprint⟩
    | fault f => cases hgoes
    | outOfFuel => cases hgoes

/-- An expression that assigns a variable and then fails, with a comment behind it. -/
theorem expression_runs_as_statement_failing_negation :
    let source := "(a = true) and -a // a"
    let env := (execute 1 "var a;" .initial).env
    let run := evaluate source env
    let e : RuntimeError := ⟨1, "-", "Operand must be a number."⟩
    (parseExpression source).errors = [] ∧ env.Reachable ∧
    run = ⟨.error (.runtime e), run.env, #[], ⟨[], [e]⟩⟩ ∧ (evaluate "a" run.env).result = .ok (.boolean true) ∧
    (∀ r, Executes (source ++ "\n" ++ ";") env r ↔ r = ⟨.error (.runtime e), run.env, #[], ⟨[], [e]⟩⟩) ∧
    ∀ r, Executes ("print " ++ source ++ "\n" ++ ";") env r ↔
      r = ⟨.error (.runtime e), run.env, #[], ⟨[], [e]⟩⟩ := by
  intro source env run e
  have herrors : (parseExpression source).errors = [] := by decide +kernel
  have henv : env.Reachable := .execute 1 "var a;" .initial (by decide +kernel)
  have hfails : run.result = .error (.runtime e) := by decide +kernel
  obtain ⟨-, -, -, -, hfailed⟩ := expression_runs_as_statement herrors henv
  obtain ⟨hrun, hstatement, hprint⟩ := hfailed e hfails
  exact ⟨herrors, henv, hrun, by decide +kernel, hstatement, hprint⟩

end Lox
