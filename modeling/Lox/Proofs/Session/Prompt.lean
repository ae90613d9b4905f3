import Lox.Proofs.Session.Outcome

/-!
What the prompt takes a line for. A line is evaluated exactly if `evaluate` does not reject it, and then it is no program:
an expression ends with an operand or a parenthesis, and a program, unless it is empty, with a semicolon or a brace.

* `Expr.ends kind`: an expression can end with a token of the kind.
-/

namespace Lox

/-! ## Last tokens -/

/-- The kinds of tokens that an expression can end with. -/
def Expr.ends : TokenKind → Bool
  | .kwFalse | .kwTrue | .kwNil | .number | .string | .identifier | .rightParen => true
  | _ => false

theorem Expr.ends_of_constant? {t : Token} {value : Value} (h : t.constant? = some value) :
    Expr.ends t.kind = true := by
  unfold Token.constant? at h
  split at h <;> simp_all [Expr.ends]

/-- An expression has a last token, of a kind that ends one. -/
theorem Expr.Derives.last {r : Expr.Rung} {ts : List Token} {e : Expr} (h : Expr.Derives r ts e) :
    ∃ us t, ts = us ++ [t] ∧ Expr.ends t.kind = true := by
  induction h with
  | tighter _ ih => exact ih
  | @assign name sign _ _ _ _ _ ih =>
    obtain ⟨us, t, rfl, ht⟩ := ih
    exact ⟨name :: sign :: us, t, rfl, ht⟩
  | @operator _ operator ts _ _ _ _ _ _ _ ih =>
    obtain ⟨us, t, rfl, ht⟩ := ih
    exact ⟨ts ++ operator :: us, t, by simp, ht⟩
  | @prefixed operator _ _ _ _ ih =>
    obtain ⟨us, t, rfl, ht⟩ := ih
    exact ⟨operator :: us, t, rfl, ht⟩
  | @constant t _ h => exact ⟨[], t, rfl, Expr.ends_of_constant? h⟩
  | @name t h => exact ⟨[], t, rfl, by simp [Expr.ends, h]⟩
  | @group opening closing ts _ _ h _ _ => exact ⟨opening :: ts, closing, rfl, by simp [Expr.ends, h]⟩

/-- A piece of a program that has tokens ends with a semicolon or a closing brace. -/
theorem Stmt.Derives.last {p : Stmt.Phrase} {ts : List Token} (h : Stmt.Derives p ts) (hne : ts ≠ []) :
    ∃ us t, ts = us ++ [t] ∧ (t.kind = .semicolon ∨ t.kind = .rightBrace) := by
  have hsome : ∀ {s : Stmt} {ending : Stmt.Ending} {us : List Token}, Stmt.Derives (.statement s ending) us → us ≠ [] := by
    intro s ending us hs
    obtain ⟨t, vs, rfl, -⟩ := hs.first_of_statement
    simp
  induction h with
  | nil => exact absurd rfl hne
  | @cons ts us _ _ _ _ ih ih' =>
    cases us with
    | nil =>
      rw [List.append_nil] at hne ⊢
      exact ih hne
    | cons u us =>
      obtain ⟨vs, t, heq, ht⟩ := ih' (by simp)
      exact ⟨ts ++ vs, t, by rw [heq, List.append_assoc], ht⟩
  | declares hdeclares =>
    cases hdeclares with
    | @bare word name semicolon _ _ h => exact ⟨[word, name], semicolon, rfl, .inl h⟩
    | @initialized word name sign semicolon ts _ _ _ _ _ h => exact ⟨word :: name :: sign :: ts, semicolon, rfl, .inl h⟩
  | statement _ ih => exact ih hne
  | @ifThen word opening closing ts _ _ _ _ _ _ _ _ hyes ih =>
    obtain ⟨vs, t, rfl, ht⟩ := ih (hsome hyes)
    exact ⟨word :: opening :: (ts ++ closing :: vs), t, by simp, ht⟩
  | @ifThenElse word opening closing otherwise ts us _ _ _ _ _ _ _ _ _ _ _ hno _ ih =>
    obtain ⟨ws, t, rfl, ht⟩ := ih (hsome hno)
    exact ⟨word :: opening :: (ts ++ closing :: (us ++ otherwise :: ws)), t, by simp, ht⟩
  | @whileLoop word opening closing ts _ _ _ _ _ _ _ _ hbody ih =>
    obtain ⟨vs, t, rfl, ht⟩ := ih (hsome hbody)
    exact ⟨word :: opening :: (ts ++ closing :: vs), t, by simp, ht⟩
  | @forLoop word opening semicolon closing ts us vs _ _ _ _ _ _ _ _ _ _ _ _ _ hbody ih =>
    obtain ⟨xs, t, rfl, ht⟩ := ih (hsome hbody)
    exact ⟨word :: opening :: (ts ++ (us ++ semicolon :: (vs ++ closing :: xs))), t, by simp, ht⟩
  | @print word semicolon ts _ _ _ h => exact ⟨word :: ts, semicolon, rfl, .inl h⟩
  | @block opening closing ts _ _ _ h _ => exact ⟨opening :: ts, closing, rfl, .inr h⟩
  | @expression semicolon ts _ _ h => exact ⟨ts, semicolon, rfl, .inl h⟩

/-- No tokens are an expression and a program. -/
theorem Expr.Derives.not_program {r : Expr.Rung} {ts : List Token} {e : Expr} (h : Expr.Derives r ts e)
    (program : List Stmt) : ¬ Stmt.Derives (.declarations program) ts := by
  intro hprogram
  obtain ⟨us, t, rfl, ht⟩ := h.last
  obtain ⟨vs, u, heq, hu⟩ := hprogram.last (by simp)
  obtain ⟨-, hlast⟩ := List.append_inj' heq rfl
  obtain rfl : t = u := List.singleton_inj.1 hlast
  rcases hu with hu | hu <;> simp [hu, Expr.ends] at ht

/-! ## Lines -/

section Lines

variable {source : String}

/-- Source text is an expression by itself if parsing it as one reports nothing. -/
theorem isExpression_iff : isExpression source = true ↔ (parseExpression source).errors = [] := by
  unfold isExpression
  rw [Bool.and_eq_true, List.isEmpty_iff]
  refine ⟨And.right, fun herrors => ⟨?_, herrors⟩⟩
  obtain ⟨e, he, -⟩ := wholeExpression_of_errors_eq_nil herrors
  rw [he]
  rfl

/-- No source text is an expression and a program. -/
theorem parseProgram_errors_of_isExpression (h : isExpression source = true) : (parseProgram source).errors ≠ [] := by
  intro hprogram
  obtain ⟨e, -, -, ts, line, htokens, hexpression⟩ := wholeExpression_of_errors_eq_nil (isExpression_iff.1 h)
  obtain ⟨-, us, line', htokens', hderives⟩ := wholeProgram_of_errors_eq_nil hprogram
  obtain ⟨rfl, -⟩ := List.append_inj' (htokens.symm.trans htokens') rfl
  exact hexpression.not_program _ hderives

/-- Evaluation does not reject a tree. -/
theorem reported_evaluateTree_ne_rejected (e : Expr) (env : Env) (count : Nat) :
    (evaluateTree e env).reported.result ≠ .error (.rejected count) := by
  unfold evaluateTree Run.ofEval Run.reported
  rcases e.eval ⟨env, #[]⟩ with a | (err | fault | _) <;> simp

/-- The evaluation of a tree reports no errors of the source. -/
theorem syntaxErrors_reported_evaluateTree (e : Expr) (env : Env) :
    (evaluateTree e env).reported.diagnostics.syntaxErrors = [] := by
  unfold evaluateTree Run.ofEval Run.reported
  rcases e.eval ⟨env, #[]⟩ with a | (err | fault | _) <;> rfl

end Lines

/-- **The prompt tells expressions from programs.** In every environment that calls on source text can leave, evaluation
ends, and source text is an expression by itself exactly if evaluating it does not reject it; then it is no program, as
parsing it as one reports an error. So the answer to a line that is an expression shows no error of the source, and a line
that is a program is run as one. -/
theorem prompt_tells_expressions_from_programs {env : Env} (henv : env.Reachable) :
    (∀ source : String, Call.goesOn (evaluate source env) = true ∧
      (isExpression source = true ↔ ∀ count, (evaluate source env).result ≠ .error (.rejected count)) ∧
      (isExpression source = true → (parseProgram source).errors ≠ [])) ∧
    ∀ line : String,
      (isExpression (trimmedEnd line) = true →
        (evaluate (trimmedEnd line) env).diagnostics.syntaxErrors = [] ∧
        (Prompt.turn env line).stderr =
          asLines ((evaluate (trimmedEnd line) env).diagnostics.runtimeErrors.map RuntimeError.text)) ∧
      ((parseProgram (trimmedEnd line)).errors = [] →
        Prompt.turn env line =
          ⟨(execute ample (trimmedEnd line) env).env,
            Sink.accepting.received (execute ample (trimmedEnd line) env).printed,
            asLines (execute ample (trimmedEnd line) env).diagnostics.messages⟩) := by
  refine ⟨fun source => ⟨evaluate_goesOn henv.global source, ⟨fun h count => ?_, fun h => ?_⟩,
    parseProgram_errors_of_isExpression⟩, fun line => ⟨fun h => ?_, fun h => ?_⟩⟩
  · have herrors := isExpression_iff.1 h
    obtain ⟨e, he, -⟩ := wholeExpression_of_errors_eq_nil herrors
    rw [evaluate_of_errors_eq_nil herrors he]
    exact reported_evaluateTree_ne_rejected e env count
  · rw [isExpression_iff]
    by_contra herrors
    rw [evaluate_of_errors_ne_nil herrors] at h
    exact h _ rfl
  · have herrors := isExpression_iff.1 h
    obtain ⟨e, he, -⟩ := wholeExpression_of_errors_eq_nil herrors
    have hnone : (evaluate (trimmedEnd line) env).diagnostics.syntaxErrors = [] := by
      rw [evaluate_of_errors_eq_nil herrors he]
      exact syntaxErrors_reported_evaluateTree e env
    refine ⟨hnone, ?_⟩
    simp only [Prompt.turn, h, if_true, Diagnostics.messages, hnone, List.map_nil, List.nil_append]
  · have hprogram : isExpression (trimmedEnd line) = false :=
      Bool.eq_false_iff.2 fun hexpression => parseProgram_errors_of_isExpression hexpression h
    simp only [Prompt.turn, hprogram, Bool.false_eq_true, if_false]

/-- With a variable that has no number: its negation is an expression, which fails without an error of the source, and a
line that prints it is a program. -/
theorem prompt_tells_expressions_from_programs_negation :
    let env := (execute 1 "var a;" .initial).env
    let run := execute ample "print a;" env
    env.Reachable ∧ isExpression "-a" = true ∧ (parseProgram "-a").errors ≠ [] ∧
    (Prompt.turn env "-a\n").stderr = asLines ["Operand must be a number.\n[line 1]"] ∧
    Prompt.turn env "print a;\n" = ⟨run.env, Sink.accepting.received run.printed, asLines run.diagnostics.messages⟩ := by
  intro env run
  have henv : env.Reachable := .execute 1 "var a;" .initial (by decide +kernel)
  obtain ⟨hsources, hlines⟩ := prompt_tells_expressions_from_programs henv
  have hexpression : isExpression "-a" = true := by decide +kernel
  have htrimmed : trimmedEnd "-a\n" = "-a" := by decide +kernel
  have htrimmed' : trimmedEnd "print a;\n" = "print a;" := by decide +kernel
  have hprogram : (parseProgram "print a;").errors = [] := by decide +kernel
  have herror : (evaluate "-a" env).diagnostics.runtimeErrors = [⟨1, "-", "Operand must be a number."⟩] := by
    decide +kernel
  obtain ⟨hexpressions, -⟩ := hlines "-a\n"
  obtain ⟨-, hprograms⟩ := hlines "print a;\n"
  rw [htrimmed] at hexpressions
  rw [htrimmed'] at hprograms
  obtain ⟨-, hstderr⟩ := hexpressions hexpression
  refine ⟨henv, hexpression, (hsources "-a").2.2 hexpression, ?_, hprograms hprogram⟩
  rw [hstderr, herror]
  rfl

end Lox
