import Lox.Proofs.Expr.Sequel
import Lox.Proofs.Stmt.Gap

/-!
What is refused where a simple statement lacks its semicolon.

* `Leads before`: behind the tokens the statement parser comes to a statement, whatever it is.
* `Follows kind`: a token of the kind can come behind a simple statement.
* `Inside.leads`: the beginning of a construct leads to the statement in it.
* `Lacking.next`: without its semicolon a declaration goes on with an expression that starts with `-`, or a token behind the
  gap is refused.

The refused token is the next one. Only in the header of a `for` loop it can be the parenthesis, as the semicolon of the
second clause may end the first.
-/

namespace Lox.Stmt

open Lox.Parser

section Words

variable {n : Nat} {word : Token} {us : List Token}

theorem parser_if (hword : word.kind = .kwIf) :
    parser (n + 1) (word :: us) = conditional (Expr.parser (n + 1)) (parser n) us := by
  rw [parser, statement, bind_of_accepts (accepts_peek_iff.2 ⟨us, rfl, rfl⟩), hword]
  exact bind_of_accepts (accepts_skip (by simp [hword]) us)

theorem parser_while (hword : word.kind = .kwWhile) :
    parser (n + 1) (word :: us) = whileLoop (Expr.parser (n + 1)) (parser n) us := by
  rw [parser, statement, bind_of_accepts (accepts_peek_iff.2 ⟨us, rfl, rfl⟩), hword]
  exact bind_of_accepts (accepts_skip (by simp [hword]) us)

theorem parser_for (hword : word.kind = .kwFor) :
    parser (n + 1) (word :: us) = forStatement (Expr.parser (n + 1)) (parser n) us := by
  rw [parser, statement, bind_of_accepts (accepts_peek_iff.2 ⟨us, rfl, rfl⟩), hword]
  exact bind_of_accepts (accepts_skip (by simp [hword]) us)

theorem parser_print (hword : word.kind = .kwPrint) :
    parser (n + 1) (word :: us) = printStatement (Expr.parser (n + 1)) us := by
  rw [parser, statement, bind_of_accepts (accepts_peek_iff.2 ⟨us, rfl, rfl⟩), hword]
  exact bind_of_accepts (accepts_skip (by simp [hword]) us)

theorem parser_block (hword : word.kind = .leftBrace) :
    parser (n + 1) (word :: us) = blockStatement n (Expr.parser (n + 1)) (parser n) us := by
  rw [parser, statement, bind_of_accepts (accepts_peek_iff.2 ⟨us, rfl, rfl⟩), hword]
  exact bind_of_accepts (accepts_skip (by simp [hword]) us)

theorem parser_expression (hstarts : Expr.starts word.kind = true) :
    parser (n + 1) (word :: us) = expressionStatement (Expr.parser (n + 1)) (word :: us) := by
  rw [parser, statement, bind_of_accepts (accepts_peek_iff.2 ⟨us, rfl, rfl⟩)]
  refine congrFun (a := word :: us) ?_
  split
  case h_6 => rfl
  all_goals
    rename_i hkind
    simp [hkind, Expr.starts] at hstarts

end Words

/-- Behind an expression in parentheses goes on what comes behind it. -/
theorem inParens_eq {n : Nat} {opening closing : Token} {ts us : List Token} {e : Expr}
    (hopening : opening.kind = .leftParen) (he : Expr.Derives .assignment ts e) (hclosing : closing.kind = .rightParen)
    (hn : ts.length + us.length < n) (f : Expr → Parser Stmt) (before after : Reason) :
    (do
        let _ ← expect .leftParen before
        let e ← Expr.parser n
        let _ ← expect .rightParen after
        f e : Parser Stmt) (opening :: (ts ++ closing :: us)) = f e us := by
  have hopen : Accepts (expect .leftParen before) (opening :: (ts ++ closing :: us)) opening (ts ++ closing :: us) :=
    (accepts_expect_iff (by simp)).2 ⟨rfl, hopening⟩
  have hinside := he.accepted hn (hclosing ▸ Expr.Rung.stops_rightParen _)
  have hclose : Accepts (expect .rightParen after) (closing :: us) closing us :=
    (accepts_expect_iff (by simp)).2 ⟨rfl, hclosing⟩
  rw [bind_of_accepts hopen, bind_of_accepts hinside, bind_of_accepts hclose]

/-- Behind the tokens the statement parser comes to a statement, and goes on behind it in a way that does not depend on its
tree. -/
def Leads (before : List Token) : Prop := ∀ n, ∃ (k : Nat) (f : Stmt → Parser Stmt), Blind f ∧
  n ≤ k + before.length ∧ ∀ us, (before ++ us).length ≤ n → parser n (before ++ us) = (parser k >>= f) us

theorem leads_nil : Leads [] := fun n =>
  ⟨n, pure, blind_pure id, Nat.le_refl n, fun us _ => (bind_pure_eq _ us).symm⟩

/-- The beginning of a construct, up to a statement in it. -/
theorem Leads.behind {before : List Token} (h : Leads before) (first : Token) (more : List Token)
    {f : Nat → Stmt → Parser Stmt} (hf : ∀ n, Blind (f n)) (hstep : ∀ n us, (first :: more ++ us).length ≤ n + 1 →
      parser (n + 1) (first :: more ++ us) = (parser n >>= f n) us) : Leads (first :: more ++ before) := by
  intro n
  cases n with
  | zero => exact ⟨0, pure, blind_pure id, Nat.zero_le _, fun us hus => by simp at hus⟩
  | succ n =>
    obtain ⟨k, g, hg, hk, hinside⟩ := h n
    refine ⟨k, fun s => g s >>= f n, hg.bind (hf n), by simp; omega, fun us hus => ?_⟩
    rw [List.append_assoc] at hus ⊢
    rw [hstep n _ hus, bind_congr (hinside us (by simp at hus ⊢; omega)), bind_bind]

/-- what comes behind the first branch of a conditional -/
def elseBranch (condition : Expr) (body : Parser Stmt) (yes : Stmt) : Parser Stmt := do
  match ← accept .kwElse with
  | some _ => do
    let no ← body
    pure (branch condition yes (some no))
  | none => pure (branch condition yes none)

theorem blind_elseBranch (condition : Expr) (body : Parser Stmt) : Blind (elseBranch condition body) := by
  refine blind_bind fun o => ?_
  cases o with
  | none => exact blind_pure _
  | some _ => exact blind_bind fun no => blind_pure _

section Constructs

variable {word opening closing : Token} {ts before : List Token} {condition : Expr}

theorem Leads.ifThen (h : Leads before) (hword : word.kind = .kwIf) (hopening : opening.kind = .leftParen)
    (hcondition : Expr.Derives .assignment ts condition) (hclosing : closing.kind = .rightParen) :
    Leads (word :: opening :: (ts ++ closing :: before)) := by
  have hstep := h.behind word (opening :: (ts ++ [closing]))
    (fun n => blind_elseBranch condition (parser n)) fun n us hus => by
      simp only [List.cons_append, List.append_assoc, List.length_cons, List.length_append, List.nil_append] at hus ⊢
      rw [parser_if hword]
      exact inParens_eq hopening hcondition hclosing (by omega) _ _ _
  simpa using hstep

theorem Leads.otherwise {otherwise : Token} {us : List Token} {yes : Stmt} (h : Leads before)
    (hword : word.kind = .kwIf) (hopening : opening.kind = .leftParen)
    (hcondition : Expr.Derives .assignment ts condition) (hclosing : closing.kind = .rightParen)
    (hyes : Derives (.statement yes .closed) us) (hotherwise : otherwise.kind = .kwElse) :
    Leads (word :: opening :: (ts ++ closing :: (us ++ otherwise :: before))) := by
  have hstep := h.behind word (opening :: (ts ++ closing :: (us ++ [otherwise])))
    (fun n => blind_pure fun no => branch condition yes (some no)) fun n vs hvs => by
      simp only [List.cons_append, List.append_assoc, List.length_cons, List.length_append, List.nil_append] at hvs ⊢
      rw [parser_if hword]
      have hfirst : Accepts (parser n) (us ++ otherwise :: vs) yes (otherwise :: vs) :=
        hyes.accepted n otherwise vs nofun (by omega)
      have helse : Accepts (accept .kwElse) (otherwise :: vs) (some otherwise) vs :=
        accepts_acceptAny_some rfl (by simpa using hotherwise) vs
      refine (inParens_eq hopening hcondition hclosing (by simp; omega) _ _ _).trans ?_
      exact (bind_of_accepts hfirst).trans (bind_of_accepts helse)
  simpa using hstep

theorem Leads.whileLoop (h : Leads before) (hword : word.kind = .kwWhile) (hopening : opening.kind = .leftParen)
    (hcondition : Expr.Derives .assignment ts condition) (hclosing : closing.kind = .rightParen) :
    Leads (word :: opening :: (ts ++ closing :: before)) := by
  have hstep := h.behind word (opening :: (ts ++ [closing]))
    (fun n => blind_pure fun body => loop condition body) fun n us hus => by
      simp only [List.cons_append, List.append_assoc, List.length_cons, List.length_append, List.nil_append] at hus ⊢
      rw [parser_while hword]
      exact inParens_eq hopening hcondition hclosing (by omega) _ _ _
  simpa using hstep

theorem Leads.forLoop {semicolon : Token} {us vs : List Token} {initial : Option Stmt} {condition step : Option Expr}
    (h : Leads before) (hword : word.kind = .kwFor) (hopening : opening.kind = .leftParen)
    (hinitial : Initial ts initial) (hcondition : Clause us condition) (hsemicolon : semicolon.kind = .semicolon)
    (hstep : Clause vs step) (hclosing : closing.kind = .rightParen) :
    Leads (word :: opening :: (ts ++ (us ++ semicolon :: (vs ++ closing :: before)))) := by
  have hstep := h.behind word (opening :: (ts ++ (us ++ semicolon :: (vs ++ [closing]))))
    (fun n => blind_pure fun body => Stmt.forLoop initial condition step body) fun n ws hws => by
      simp only [List.cons_append, List.append_assoc, List.length_cons, List.length_append, List.nil_append] at hws ⊢
      rw [parser_for hword]
      have hopen : Accepts (expect .leftParen .parenAfterFor)
          (opening :: (ts ++ (us ++ semicolon :: (vs ++ closing :: ws)))) opening _ :=
        (accepts_expect_iff (by simp)).2 ⟨rfl, hopening⟩
      have hfirst : Accepts (forInitial (Expr.parser (n + 1))) (ts ++ (us ++ semicolon :: (vs ++ closing :: ws))) initial
          (us ++ semicolon :: (vs ++ closing :: ws)) := hinitial.accepted (by simp; omega)
      have hsecond : Accepts (forClause (Expr.parser (n + 1)) .semicolon .semicolonAfterLoopCondition)
          (us ++ semicolon :: (vs ++ closing :: ws)) condition (vs ++ closing :: ws) :=
        hsemicolon ▸ hcondition.accepted (.inl hsemicolon) (by simp; omega)
      have hthird : Accepts (forClause (Expr.parser (n + 1)) .rightParen .parenAfterForClauses) (vs ++ closing :: ws) step
          ws := hclosing ▸ hstep.accepted (.inr hclosing) (by omega)
      exact (bind_of_accepts hopen).trans ((bind_of_accepts hfirst).trans ((bind_of_accepts hsecond).trans
        (bind_of_accepts hthird)))
  simpa using hstep

end Constructs

theorem Inside.leads {outer inner : Ending} {before after : List Token} (h : Inside outer before inner after) :
    Leads before := by
  induction h with
  | here => exact leads_nil
  | ifThen hword hopening hcondition hclosing _ ih => exact ih.ifThen hword hopening hcondition hclosing
  | ifThenElse hword hopening hcondition hclosing _ _ _ ih => exact ih.ifThen hword hopening hcondition hclosing
  | otherwise hword hopening hcondition hclosing hyes hotherwise _ ih =>
    exact ih.otherwise hword hopening hcondition hclosing hyes hotherwise
  | whileLoop hword hopening hcondition hclosing _ ih => exact ih.whileLoop hword hopening hcondition hclosing
  | forLoop hword hopening hinitial hcondition hsemicolon hstep hclosing _ ih =>
    exact ih.forLoop hword hopening hinitial hcondition hsemicolon hstep hclosing

/-! ## What is refused -/

/-- A token of the kind can come behind a simple statement, in a program or right behind the semicolon. -/
def Follows (kind : TokenKind) : Prop :=
  kind = .minus ∨ Expr.Rung.assignment.Stops kind ∧ kind ≠ .equal ∧ kind ≠ .semicolon

theorem follows_of_starts {kind : TokenKind} (h : kind = .kwVar ∨ starts kind = true) : Follows kind := by
  unfold Follows Expr.Rung.Stops
  cases kind <;> simp_all [starts, Expr.starts, Level.of?]

theorem follows_of_closes {kind : TokenKind} (h : kind = .rightBrace ∨ kind = .endMark ∨ kind = .kwElse) :
    Follows kind := by
  unfold Follows Expr.Rung.Stops
  rcases h with rfl | rfl | rfl <;> simp [Level.of?]

section Next

variable {t : Token}

/-- A token of the kind that comes next starts a declaration or closes them. -/
theorem Derives.next_of_declarations {ss : List Stmt} {ts : List Token} (h : Derives (.declarations ss) ts)
    (ht : t.kind = .rightBrace ∨ t.kind = .endMark) (rest : List Token) :
    ∃ u us, ts ++ t :: rest = u :: us ∧ Follows u.kind := by
  cases h with
  | nil => exact ⟨t, rest, rfl, follows_of_closes (by tauto)⟩
  | cons hs _ =>
    obtain ⟨u, us, rfl, hu⟩ := hs.first_of_declaration
    exact ⟨u, _, rfl, follows_of_starts hu⟩

/-- A declaration that starts with `-` is an expression with its semicolon. -/
theorem Derives.expression_of_minus {sign : Token} {ts : List Token} {s : Stmt}
    (h : Derives (.declaration s) (sign :: ts)) (hsign : sign.kind = .minus) :
    ∃ us semicolon e, ts = us ++ [semicolon] ∧ semicolon.kind = .semicolon ∧
      Expr.Derives .assignment (sign :: us) e := by
  generalize hts : sign :: ts = vs at h
  cases h with
  | declares hvar =>
    obtain ⟨t, us, rfl, ht⟩ := hvar.first
    obtain ⟨rfl, -⟩ := List.cons.inj hts
    simp [hsign] at ht
  | statement hs =>
    cases hs with
    | ifThen hword | ifThenElse hword | whileLoop hword | forLoop hword | print hword | block hword =>
      obtain ⟨rfl, -⟩ := List.cons.inj hts
      simp [hsign] at hword
    | expression hvalue hsemicolon =>
      obtain ⟨t, us, rfl, -⟩ := hvalue.first
      obtain ⟨rfl, rfl⟩ := List.cons.inj hts
      exact ⟨us, _, _, rfl, hsemicolon, hvalue⟩

end Next

end Lox.Stmt

namespace Lox.Expr

open Lox.Parser

variable {t : Token} {rest : List Token}

theorem primary_refuses (ht : starts t.kind = false) (inside : Parser Expr) :
    Refuses (primary inside) (t :: rest) .expression t rest := by
  have hnone : t.constant? = none := by
    cases h : t.constant? with
    | none => rfl
    | some value =>
      rw [(starts_of_constant? h).1] at ht
      cases ht
  refine refuses_peek_bind ?_
  rw [hnone]
  dsimp only
  split
  · rename_i hkind
    simp [hkind, starts] at ht
  · rename_i hkind
    simp [hkind, starts] at ht
  · exact refuses_fail _ t rest

/-- No expression starts with the token. -/
theorem parser_refuses (ht : starts t.kind = false) {n : Nat} (hn : 0 < n) :
    Refuses (parser n) (t :: rest) .expression t rest := by
  obtain ⟨n, rfl⟩ : ∃ i, n = i + 1 := ⟨n - 1, by omega⟩
  have hplain : isPrefixOperator t.kind = false := by
    revert ht
    cases t.kind <;> simp [starts, isPrefixOperator]
  have hprefixed : Refuses (prefixed (primary (parser n)) (n + 1)) (t :: rest) .expression t rest :=
    Accepts.bindRefuses (accepts_acceptAny_none rfl hplain rest) (primary_refuses ht _)
  have hclimb : ∀ levels, Refuses (climb (n + 1) levels (prefixed (primary (parser n)) (n + 1))) (t :: rest)
      .expression t rest := by
    intro levels
    induction levels with
    | nil => exact hprefixed
    | cons level levels ih => exact ih.bind
  exact (hclimb Level.ladder).bind

end Lox.Expr

namespace Lox.Stmt

open Lox.Parser

/-- The token behind those that are skipped is accused of a missing semicolon: it is the next one, or the parenthesis behind
the other two clauses of a `for` header, as the semicolon of the second ends the first. -/
inductive Accuses : List Token → Token → Reason → Prop
  | next {t : Token} {reason : Reason} :
      reason ∈ [.semicolonAfterDeclaration, .semicolonAfterValue, .semicolonAfterExpression] → Accuses [] t reason
  | closing {semicolon closing : Token} {us vs : List Token} {condition step : Option Expr} {reason : Reason} :
      Clause us condition → semicolon.kind = .semicolon → Clause vs step → closing.kind = .rightParen →
      reason ∈ [.semicolonAfterLoopCondition, .expression] → Accuses (us ++ semicolon :: vs) closing reason

section Refusals

variable {n : Nat} {t : Token} {ts rest : List Token}

/-- An expression as a statement, with another token in the place of its semicolon. -/
theorem beforeSemicolon_refuses {value : Expr} (h : Expr.Derives .assignment ts value)
    (ht : Expr.Rung.assignment.Stops t.kind) (hne : t.kind ≠ .semicolon) (hn : ts.length + rest.length < n)
    (make : Expr → Stmt) (reason : Reason) :
    Refuses (do let value ← Expr.parser n; let _ ← expect .semicolon reason; pure (make value)) (ts ++ t :: rest) reason t
      rest :=
  (h.accepted hn ht).bindRefuses (refuses_expect (by simp) hne reason rest).bind

theorem Follows.ne_semicolon {kind : TokenKind} (h : Follows kind) : kind ≠ .semicolon := by
  rcases h with rfl | h
  · simp
  · exact h.2.2

theorem Follows.ne_equal {kind : TokenKind} (h : Follows kind) : kind ≠ .equal := by
  rcases h with rfl | h
  · simp
  · exact h.2.1

/-- Behind the beginning of a variable declaration the token is refused, or it is a `-` with which the value goes on. -/
theorem Declaring.next (h : Declaring ts) (ht : Follows t.kind) :
    (t.kind = .minus ∧ ∀ us e, Expr.Derives .assignment (t :: us) e → Declaring (ts ++ t :: us)) ∨
      ∃ word us, ts = word :: us ∧ word.kind = .kwVar ∧ ∀ n rest, ts.length + rest.length < n →
        Refuses (declaration (Expr.parser n)) (us ++ t :: rest) .semicolonAfterDeclaration t rest := by
  cases h with
  | @bare word name hword hname =>
    refine .inr ⟨word, [name], rfl, hword, fun n rest _ => ?_⟩
    have hfirst : Accepts (expect .identifier .variableName) (name :: t :: rest) name (t :: rest) :=
      (accepts_expect_iff (by simp)).2 ⟨rfl, hname⟩
    have hnone : Accepts (initialValue (Expr.parser n)) (t :: rest) none (t :: rest) :=
      (accepts_acceptAny_none rfl (by simpa using ht.ne_equal) rest).bind (accepts_pure_iff.2 ⟨rfl, rfl⟩)
    exact hfirst.bindRefuses (hnone.bindRefuses (refuses_expect (by simp) ht.ne_semicolon _ rest).bind)
  | @initialized word name sign us value hword hname hsign hvalue =>
    rcases ht with hminus | ⟨hstops, -, hne⟩
    · refine .inl ⟨hminus, fun vs e he => ?_⟩
      obtain ⟨value', hvalue'⟩ := hvalue.append_minus he hminus
      exact .initialized hword hname hsign hvalue'
    · refine .inr ⟨word, name :: sign :: us, rfl, hword, fun n rest hn => ?_⟩
      simp only [List.length_cons] at hn
      have hfirst : Accepts (expect .identifier .variableName) (name :: sign :: us ++ t :: rest) name
          (sign :: us ++ t :: rest) := (accepts_expect_iff (by simp)).2 ⟨rfl, hname⟩
      have hsome : Accepts (initialValue (Expr.parser n)) (sign :: us ++ t :: rest) (some value) (t :: rest) := by
        refine (accepts_acceptAny_some rfl (by simpa using hsign) _).bind ?_
        exact accepts_map_iff.2 ⟨value, hvalue.accepted (by omega) hstops, rfl⟩
      exact hfirst.bindRefuses (hsome.bindRefuses (refuses_expect (by simp) hne _ rest).bind)

/-- Behind the beginning of a first clause the token is refused, or it is a `-` with which the clause goes on. -/
theorem Initializing.next (h : Initializing ts) (ht : Follows t.kind) :
    (t.kind = .minus ∧ ∀ us e, Expr.Derives .assignment (t :: us) e → Initializing (ts ++ t :: us)) ∨
      ∃ reason, Accuses [] t reason ∧ ∀ n rest, ts.length + rest.length < n →
        Refuses (forInitial (Expr.parser n)) (ts ++ t :: rest) reason t rest := by
  cases h with
  | declares h =>
    rcases h.next ht with ⟨hminus, hmore⟩ | ⟨word, us, rfl, hword, hrefuses⟩
    · exact .inl ⟨hminus, fun us e he => .declares (hmore us e he)⟩
    · refine .inr ⟨.semicolonAfterDeclaration, .next (by simp), fun n rest hn => refuses_peek_bind ?_⟩
      rw [hword]
      exact refuses_skip_bind (by simp [hword]) ((hrefuses n rest hn).map some)
  | expression hvalue =>
    rcases ht with hminus | ⟨hstops, -, hne⟩
    · refine .inl ⟨hminus, fun us e he => ?_⟩
      obtain ⟨value', hvalue'⟩ := hvalue.append_minus he hminus
      exact .expression hvalue'
    · refine .inr ⟨.semicolonAfterExpression, .next (by simp), fun n rest hn => ?_⟩
      have hrefuses : Refuses (expressionStatement (Expr.parser n)) (ts ++ t :: rest) _ t rest :=
        beforeSemicolon_refuses hvalue hstops hne hn Stmt.expression .semicolonAfterExpression
      obtain ⟨u, us, rfl, hstarts, -⟩ := hvalue.first
      refine refuses_peek_bind ?_
      split
      · rename_i hkind
        simp [hkind, Expr.starts] at hstarts
      · rename_i hkind
        simp [hkind, Expr.starts] at hstarts
      · exact hrefuses.map some

/-- A second clause with a parenthesis in the place of its semicolon. -/
theorem Clause.refuses {closing : Token} {clause : Option Expr} (h : Clause ts clause)
    (hclosing : closing.kind = .rightParen) :
    ∃ reason ∈ [Reason.semicolonAfterLoopCondition, .expression], ∀ n rest, ts.length + rest.length < n →
      Refuses (forClause (Expr.parser n) .semicolon .semicolonAfterLoopCondition) (ts ++ closing :: rest) reason closing
        rest := by
  cases h with
  | absent =>
    refine ⟨.expression, by simp, fun n rest hn => Refuses.bind ?_⟩
    refine refuses_peek_bind ?_
    rw [if_neg (by simp [hclosing])]
    exact (Expr.parser_refuses (by simp [Expr.starts, hclosing]) (by omega)).map some
  | @present _ e he =>
    refine ⟨.semicolonAfterLoopCondition, by simp, fun n rest hn => ?_⟩
    have hoptional : Accepts (optionalExpr (Expr.parser n) .semicolon) (ts ++ closing :: rest) (some e)
        (closing :: rest) := by
      have haccepts := he.accepted hn (hclosing ▸ Expr.Rung.stops_rightParen _)
      obtain ⟨t, us, rfl, hstarts, -⟩ := he.first
      refine accepts_peek_bind_iff.2 ⟨t, us ++ closing :: rest, rfl, ?_⟩
      rw [if_neg fun hk => by simp [hk, Expr.starts] at hstarts]
      exact accepts_map_iff.2 ⟨e, haccepts, rfl⟩
    exact hoptional.bindRefuses (refuses_expect (by simp) (by simp [hclosing]) _ rest).bind

/-- In a `for` header without the semicolon of its first clause a token is refused: the one behind the clause, or the
parenthesis, if the semicolon of the second clause ends the first. -/
theorem Initializing.forStatement_refuses {opening semicolon closing : Token} {us vs : List Token}
    {condition step : Option Expr} (h : Initializing ts) (hopening : opening.kind = .leftParen)
    (hcondition : Clause us condition) (hsemicolon : semicolon.kind = .semicolon) (hstep : Clause vs step)
    (hclosing : closing.kind = .rightParen) (ws : List Token) :
    ∃ skipped t rest reason, us ++ semicolon :: (vs ++ closing :: ws) = skipped ++ t :: rest ∧
      Accuses skipped t reason ∧ ∀ n body, (ts ++ (us ++ semicolon :: (vs ++ closing :: ws))).length ≤ n →
        Refuses (forStatement (Expr.parser n) body)
          (opening :: (ts ++ (us ++ semicolon :: (vs ++ closing :: ws)))) reason t rest := by
  have hopen : ∀ us, Accepts (expect .leftParen .parenAfterFor) (opening :: us) opening us := fun us =>
    (accepts_expect_iff (by simp)).2 ⟨rfl, hopening⟩
  obtain ⟨reason, hmem, hreason⟩ := hstep.refuses hclosing
  have haccuses : Accuses (us ++ semicolon :: vs) closing reason := .closing hcondition hsemicolon hstep hclosing hmem
  -- what is left where the first clause ends with the semicolon of the second
  have hjoined : Initializing (ts ++ us) → ∀ n body, (ts ++ (us ++ semicolon :: (vs ++ closing :: ws))).length ≤ n →
      Refuses (forStatement (Expr.parser n) body) (opening :: (ts ++ (us ++ semicolon :: (vs ++ closing :: ws)))) reason
        closing ws := by
    intro hinitializing n body hn
    obtain ⟨s, hinitial⟩ := hinitializing.initial hsemicolon
    simp only [List.length_append, List.length_cons] at hn
    have hfirst : Accepts (forInitial (Expr.parser n)) (ts ++ (us ++ semicolon :: (vs ++ closing :: ws))) (some s)
        (vs ++ closing :: ws) := by
      have haccepts : Accepts (forInitial (Expr.parser n)) (ts ++ us ++ [semicolon] ++ (vs ++ closing :: ws)) (some s)
          (vs ++ closing :: ws) := hinitial.accepted (by simp; omega)
      simpa using haccepts
    exact (hopen _).bindRefuses (hfirst.bindRefuses (hreason n ws (by omega)).bind)
  cases hcondition with
  | absent =>
    exact ⟨semicolon :: vs, closing, ws, reason, rfl, haccuses, hjoined (by simpa using h)⟩
  | @present _ e he =>
    obtain ⟨t, us, rfl, hstarts, -⟩ := he.first
    have hfollows : Follows t.kind := follows_of_starts (.inr (by simp [starts, hstarts]))
    rcases h.next hfollows with ⟨-, hmore⟩ | ⟨reason', haccuses', hrefuses⟩
    · exact ⟨t :: us ++ semicolon :: vs, closing, ws, reason, by simp, haccuses, hjoined (hmore us e he)⟩
    · refine ⟨[], t, us ++ semicolon :: (vs ++ closing :: ws), reason', rfl, haccuses', fun n body hn => ?_⟩
      exact (hopen _).bindRefuses (hrefuses n _ (by simp at hn ⊢; omega)).bind

/-- Behind a statement inside of another comes nothing that belongs to it, or an `else`. -/
theorem Inside.first_after {outer inner : Ending} {before after : List Token} (h : Inside outer before inner after) :
    after = [] ∨ ∃ t us, after = t :: us ∧ t.kind = .kwElse := by
  induction h with
  | here => exact .inl rfl
  | ifThenElse _ _ _ _ _ hotherwise _ ih =>
    rcases ih with rfl | ⟨t, us, rfl, ht⟩
    · exact .inr ⟨_, _, rfl, hotherwise⟩
    · exact .inr ⟨t, _, rfl, ht⟩
  | ifThen _ _ _ _ _ ih | otherwise _ _ _ _ _ _ _ ih | whileLoop _ _ _ _ _ ih | forLoop _ _ _ _ _ _ _ _ ih => exact ih

/-- The construct around a statement has a first token, of a kind that starts a statement. -/
theorem Inside.first_before {outer inner : Ending} {before after : List Token} (h : Inside outer before inner after) :
    before = [] ∨ ∃ t us, before = t :: us ∧ starts t.kind = true := by
  cases h with
  | here => exact .inl rfl
  | ifThen hword | ifThenElse hword | otherwise hword | whileLoop hword | forLoop hword =>
    exact .inr ⟨_, _, rfl, by simp [starts, hword]⟩

/-- A statement with a block in it starts with one token, whatever is in the block. -/
theorem Inside.first_around {opening : Token} {before behind : List Token} {outer : Ending}
    (h : Inside outer before .closed behind) (hopening : opening.kind = .leftBrace) :
    ∃ t, (∀ us, ∃ vs, before ++ opening :: us = t :: vs) ∧ starts t.kind = true := by
  rcases h.first_before with rfl | ⟨t, before, rfl, ht⟩
  · exact ⟨opening, fun us => ⟨us, rfl⟩, by simp [starts, hopening]⟩
  · exact ⟨t, fun us => ⟨_, rfl⟩, ht⟩

theorem Lacking.first {inner after : List Token} (h : Lacking inner after) :
    ∃ t us, inner = t :: us ∧ (t.kind = .kwVar ∨ starts t.kind = true) := by
  obtain ⟨s, hs⟩ : ∃ s, Derives (.declaration s) (inner ++ ⟨.semicolon, ";", none, 1⟩ :: after) := h.derives rfl
  obtain ⟨t, us, hus, ht⟩ := hs.first_of_declaration
  cases inner with
  | nil =>
    obtain ⟨rfl, -⟩ := List.cons.inj hus
    exact absurd ht (by decide)
  | cons t inner =>
    obtain ⟨rfl, -⟩ := List.cons.inj hus
    exact ⟨t, inner, rfl, ht⟩

/-- What is refused as a statement is refused inside of another, and in the place of a declaration. -/
theorem Inside.declarationOr_refuses {outer inner : Ending} {before after : List Token} {reason : Reason}
    (h : Inside outer before inner after) {u : Token} {us : List Token} (hu : u.kind ≠ .kwVar)
    (hrefuses : ∀ k, (u :: us).length ≤ k → Refuses (parser k) (u :: us) reason t rest) {m : Nat}
    (hm : (before ++ u :: us).length ≤ m) (expr : Parser Expr) :
    Refuses (declarationOr expr (parser m)) (before ++ u :: us) reason t rest := by
  obtain ⟨k, f, -, hk, hinside⟩ := h.leads m
  have hparser : Refuses (parser m) (before ++ u :: us) reason t rest := by
    have hbind : Refuses (parser k >>= f) (u :: us) reason t rest :=
      (hrefuses k (by simp at hm ⊢; omega)).bind
    exact (hinside _ hm).trans hbind
  obtain ⟨v, vs, hvs, hv⟩ : ∃ v vs, before ++ u :: us = v :: vs ∧ v.kind ≠ .kwVar := by
    rcases h.first_before with rfl | ⟨v, vs, rfl, hv⟩
    · exact ⟨u, us, rfl, hu⟩
    · exact ⟨v, _, rfl, fun hk => by simp [hk, starts, Expr.starts] at hv⟩
  rw [hvs] at hparser ⊢
  exact (accepts_acceptAny_none rfl (by simpa using hv) vs).bindRefuses hparser

/-- Behind the value of a statement the next token is refused, or it is a `-` with which the value goes on. The statement is
the value behind the tokens `first`. -/
theorem Inside.next {outer : Ending} {before after : List Token} {value : Expr} (h : Inside outer before .closed after)
    (hvalue : Expr.Derives .assignment ts value) (ht : Follows t.kind) (rest first : List Token) (reason : Reason)
    (hlacking : ∀ us e, Expr.Derives .assignment us e → Lacking (before ++ (first ++ us)) after) {u : Token}
    {us : List Token} (hfirst : first ++ ts = u :: us) (hu : u.kind ≠ .kwVar)
    (hrefuses : ∀ k v vs, Expr.Rung.assignment.Stops v.kind → v.kind ≠ .semicolon →
      (u :: us ++ v :: vs).length ≤ k → Refuses (parser k) (u :: us ++ v :: vs) reason v vs) :
    (after = [] ∧ t.kind = .minus ∧ ∀ us e, Expr.Derives .assignment (t :: us) e →
      Lacking (before ++ (first ++ ts) ++ t :: us) []) ∨
      ∃ v vs, after ++ t :: rest = v :: vs ∧ ∀ n m, (before ++ (first ++ ts) ++ (after ++ t :: rest)).length ≤ m →
        Refuses (declarationOr (Expr.parser n) (parser m)) (before ++ (first ++ ts) ++ (after ++ t :: rest)) reason v
          vs := by
  -- a token that cannot go on with the value
  have hstopped : ∀ v vs, Expr.Rung.assignment.Stops v.kind → v.kind ≠ .semicolon → ∀ n m,
      (before ++ (first ++ ts) ++ v :: vs).length ≤ m →
      Refuses (declarationOr (Expr.parser n) (parser m)) (before ++ (first ++ ts) ++ v :: vs) reason v vs := by
    intro v vs hstops hne n m hm
    rw [List.append_assoc, hfirst] at hm ⊢
    exact h.declarationOr_refuses hu (fun k hk => hrefuses k v vs hstops hne hk) hm _
  rcases h.first_after with rfl | ⟨v, vs, rfl, hv⟩
  · rcases ht with hminus | ⟨hstops, -, hne⟩
    · refine .inl ⟨rfl, hminus, fun us e he => ?_⟩
      obtain ⟨e', he'⟩ := hvalue.append_minus he hminus
      simpa using hlacking _ e' he'
    · exact .inr ⟨t, rest, rfl, hstopped t rest hstops hne⟩
  · have helse : Follows v.kind := follows_of_closes (.inr (.inr hv))
    rcases helse with hminus | ⟨hstops, -, hne⟩
    · simp [hv] at hminus
    · exact .inr ⟨v, _, rfl, hstopped v _ hstops hne⟩

/-- Without its semicolon a declaration goes on with an expression that starts with `-`, or a token behind the gap is
refused: the next one, or the parenthesis that closes the header of a `for` loop. -/
theorem Lacking.next {inner after : List Token} (h : Lacking inner after) (ht : Follows t.kind) (rest : List Token) :
    (after = [] ∧ t.kind = .minus ∧ ∀ us e, Expr.Derives .assignment (t :: us) e → Lacking (inner ++ t :: us) []) ∨
      ∃ skipped u us reason, after ++ t :: rest = skipped ++ u :: us ∧ Accuses skipped u reason ∧
        ∀ n m, (inner ++ (after ++ t :: rest)).length ≤ n → (inner ++ (after ++ t :: rest)).length ≤ m →
          Refuses (declarationOr (Expr.parser n) (parser m)) (inner ++ (after ++ t :: rest)) reason u us := by
  cases h with
  | declares h =>
    rcases h.next ht with ⟨hminus, hmore⟩ | ⟨word, us, rfl, hword, hrefuses⟩
    · exact .inl ⟨rfl, hminus, fun us e he => .declares (hmore us e he)⟩
    · refine .inr ⟨[], t, rest, .semicolonAfterDeclaration, rfl, .next (by simp), fun n m hn _ => ?_⟩
      refine (accepts_acceptAny_some rfl (by simp [hword]) _).bindRefuses (hrefuses n rest ?_)
      simp at hn ⊢
      omega
  | @print word ts before after value outer hinside hword hvalue =>
    have hnext := hinside.next hvalue ht rest [word] .semicolonAfterValue
      (fun us e he => .print hinside hword he) rfl (by simp [hword]) fun k v vs hstops hne hk => by
        obtain ⟨k, rfl⟩ : ∃ i, k = i + 1 := ⟨k - 1, by simp at hk; omega⟩
        refine (parser_print hword).trans ?_
        exact beforeSemicolon_refuses hvalue hstops hne (by simp at hk; omega) Stmt.print _
    rcases hnext with hmore | ⟨v, vs, hvs, hrefuses⟩
    · exact .inl hmore
    · exact .inr ⟨[], v, vs, _, hvs, .next (by simp), fun n m _ hm => hrefuses n m hm⟩
  | @expression ts before after value outer hinside hvalue =>
    obtain ⟨u, us, rfl, hstarts, -⟩ := hvalue.first
    have hnext := hinside.next hvalue ht rest [] .semicolonAfterExpression
      (fun us e he => .expression hinside he) rfl (fun hk => by simp [hk, Expr.starts] at hstarts)
      fun k v vs hstops hne hk => by
        obtain ⟨k, rfl⟩ : ∃ i, k = i + 1 := ⟨k - 1, by simp at hk; omega⟩
        refine (parser_expression hstarts).trans ?_
        exact beforeSemicolon_refuses hvalue hstops hne (by simp at hk ⊢; omega) Stmt.expression _
    rcases hnext with hmore | ⟨v, vs, hvs, hrefuses⟩
    · exact .inl hmore
    · exact .inr ⟨[], v, vs, _, hvs, .next (by simp), fun n m _ hm => hrefuses n m hm⟩
  | @initial word opening semicolon closing ts us vs ws before after condition step body outer inner hinside hword hopening
      hinitial hcondition hsemicolon hstep hclosing hbody =>
    obtain ⟨skipped, u, rest', reason, hsplit, hu, hrefuses⟩ := hinitial.forStatement_refuses hopening hcondition
      hsemicolon hstep hclosing (ws ++ after ++ t :: rest)
    let tail := ts ++ (us ++ semicolon :: (vs ++ closing :: (ws ++ after ++ t :: rest)))
    have hloop : ∀ k, (word :: opening :: tail).length ≤ k →
        Refuses (parser k) (word :: opening :: tail) reason u rest' := by
      intro k hk
      simp only [List.length_cons] at hk
      obtain ⟨k, rfl⟩ : ∃ i, k = i + 1 := ⟨k - 1, by omega⟩
      exact (parser_for hword).trans (hrefuses (k + 1) _ (by change tail.length ≤ k + 1; omega))
    refine .inr ⟨skipped, u, rest', reason, by simpa using hsplit, hu, fun n m _ hm => ?_⟩
    have hwhole := hinside.declarationOr_refuses (by simp [hword]) hloop (m := m) (by simpa [tail] using hm)
    simpa [tail] using hwhole (Expr.parser n)

end Refusals

end Lox.Stmt
