import Lox.Proofs.Parser.Trace
import Lox.Proofs.Stmt.Scrap

/-!
The first end mark: where parsing ends, whatever comes behind it and whatever is wrong before it.

* `Expr.parser_traced`, `Stmt.parser_traced`: the parsers of the grammar have traces.
* `Stmt.declarationOr_consumes`: a declaration that is parsed has a token.
* `Cut.pairing`: tokens up to an end mark, with and without others behind it.

Parsers take basic steps and chains of them, so there is one line for each. The bounds of the parsers do not show in
their traces: with any bound that is not below the number of tokens, the run is the same.
-/

namespace Lox

open Lox.Parser

/-! ## Expressions -/

namespace Expr

theorem primary_traced {inside : Parser Expr} (h : Traced inside) : Traced (primary inside) := by
  refine peek_traced.bind fun t => ?_
  split
  · exact skip_traced.bind fun _ => pure_traced _
  · split
    · exact skip_traced.bind fun _ => pure_traced _
    · refine skip_traced.bind fun _ => h.bind fun inner => ?_
      exact (expect_traced _ _).bind fun _ => pure_traced _
    · exact fail_traced _

theorem prefixed_traced {operand : Parser Expr} (h : Traced operand) (n : Nat) : Traced (prefixed operand n) := by
  induction n with
  | zero => exact overrun_traced
  | succ n ih =>
    refine (acceptAny_traced _).bind fun o => ?_
    cases o with
    | none => exact h
    | some operator => exact ih.bind fun e => pure_traced _

theorem chainTail_traced (level : Level) {operand : Parser Expr} (h : Traced operand) (n : Nat) (left : Expr) :
    Traced (chainTail level operand n left) := by
  induction n generalizing left with
  | zero => exact overrun_traced
  | succ n ih =>
    refine (acceptAny_traced _).bind fun o => ?_
    cases o with
    | none => exact pure_traced left
    | some operator => exact h.bind fun right => ih _

theorem climb_traced (n : Nat) (levels : List Level) {operand : Parser Expr} (h : Traced operand) :
    Traced (climb n levels operand) := by
  induction levels with
  | nil => exact h
  | cons level levels ih => exact ih.bind fun left => chainTail_traced level ih n left

theorem assignment_traced {value target : Parser Expr} (hvalue : Traced value) (htarget : Traced target) :
    Traced (assignment value target) := by
  refine htarget.bind fun left => (acceptAny_traced _).bind fun o => ?_
  cases o with
  | none => exact pure_traced left
  | some sign =>
    refine hvalue.bind fun right => ?_
    split
    · exact pure_traced _
    · exact (complain_traced _ sign).bind fun _ => pure_traced right

/-- The expression parser has traces. -/
theorem parser_traced (n : Nat) : Traced (parser n) := by
  induction n with
  | zero => exact overrun_traced
  | succ n ih =>
    have hprefixed := prefixed_traced (primary_traced ih) (n + 1)
    exact assignment_traced ih (climb_traced (n + 1) Level.ladder hprefixed)

theorem wholeParser_traced (n : Nat) : Traced (wholeParser n) := by
  refine (parser_traced n).bind fun e => peek_traced.bind fun t => ?_
  split
  · exact pure_traced e
  · exact fail_traced _

end Expr

/-! ## Statements -/

namespace Stmt

section Constructs

variable {expr : Parser Expr} {body : Parser Stmt} (hexpr : Traced expr) (hbody : Traced body)

include hexpr

theorem initialValue_traced : Traced (initialValue expr) := by
  refine (acceptAny_traced _).bind fun o => ?_
  cases o with
  | none => exact pure_traced none
  | some sign => exact hexpr.map some

theorem declaration_consumes : Consumes (declaration expr) := by
  refine (expect_consumes (by simp) _).bind fun name => (initialValue_traced hexpr).bind fun initial => ?_
  exact (expect_traced _ _).bind fun _ => pure_traced _

/-- An expression with a semicolon behind it, made into a statement. -/
theorem beforeSemicolon_consumes (make : Expr → Stmt) (reason : Reason) :
    Consumes (do let value ← expr; let _ ← expect .semicolon reason; pure (make value)) :=
  hexpr.bindConsumes fun _ => (expect_consumes (by simp) _).bind fun _ => pure_traced _

theorem forInitial_traced : Traced (forInitial expr) := by
  refine peek_traced.bind fun t => ?_
  split
  · exact skip_traced.bind fun _ => pure_traced none
  · exact skip_traced.bind fun _ => (declaration_consumes hexpr).traced.map some
  · exact (beforeSemicolon_consumes hexpr _ _).traced.map some

theorem forClause_traced (stop : TokenKind) (reason : Reason) : Traced (forClause expr stop reason) := by
  have hoptional : Traced (optionalExpr expr stop) := by
    refine peek_traced.bind fun t => ?_
    split
    · exact pure_traced none
    · exact hexpr.map some
  exact hoptional.bind fun clause => (expect_traced _ _).bind fun _ => pure_traced clause

/-- An expression in parentheses, and what comes behind it. -/
theorem inParens_consumes {f : Expr → Parser Stmt} (hf : ∀ e, Traced (f e)) (before after : Reason) :
    Consumes (do
      let _ ← expect .leftParen before
      let e ← expr
      let _ ← expect .rightParen after
      f e) :=
  (expect_consumes (by simp) _).bind fun _ => hexpr.bind fun e => (expect_traced _ _).bind fun _ => hf e

include hbody

theorem conditional_consumes : Consumes (conditional expr body) := by
  refine inParens_consumes hexpr (fun condition => ?_) _ _
  refine hbody.bind fun yes => (acceptAny_traced _).bind fun o => ?_
  cases o with
  | none => exact pure_traced _
  | some _ => exact hbody.bind fun no => pure_traced _

theorem whileLoop_consumes : Consumes (whileLoop expr body) :=
  inParens_consumes hexpr (fun _ => hbody.bind fun _ => pure_traced _) _ _

theorem forStatement_consumes : Consumes (forStatement expr body) := by
  refine (expect_consumes (by simp) _).bind fun _ => (forInitial_traced hexpr).bind fun initial => ?_
  refine (forClause_traced hexpr _ _).bind fun condition => (forClause_traced hexpr _ _).bind fun step => ?_
  exact hbody.bind fun inner => pure_traced _

end Constructs

section Declarations

variable {expr : Parser Expr} {body : Parser Stmt} (hexpr : Traced expr) (hbody : Consumes body)

theorem declarations_traced (closes : TokenKind → Bool) {one : Parser Stmt} (h : Consumes one) (n : Nat) :
    Traced (declarations closes one n) := by
  induction n with
  | zero => exact overrun_traced
  | succ n ih =>
    refine peek_traced.bind fun t => ?_
    split
    · exact pure_traced []
    · exact h.recover.bind fun head => ih.bind fun tail => pure_traced _

include hexpr hbody

/-- A declaration that is parsed has a token. -/
theorem declarationOr_consumes : Consumes (declarationOr expr body) := by
  refine (acceptAny_traced _).bindConsumes fun o => ?_
  cases o with
  | none => exact hbody
  | some _ => exact declaration_consumes hexpr

theorem blockStatement_consumes (n : Nat) : Consumes (blockStatement n expr body) := by
  have hinner := declarations_traced closesBlock (declarationOr_consumes hexpr hbody) n
  exact hinner.bindConsumes fun inner => (expect_consumes (by simp) _).bind fun _ => pure_traced _

theorem statement_consumes (n : Nat) : Consumes (statement n expr body) := by
  have hbody' := hbody.traced
  refine peek_traced.bindConsumes fun t => ?_
  split
  · exact skip_traced.bindConsumes fun _ => forStatement_consumes hexpr hbody'
  · exact skip_traced.bindConsumes fun _ => conditional_consumes hexpr hbody'
  · exact skip_traced.bindConsumes fun _ => beforeSemicolon_consumes hexpr _ _
  · exact skip_traced.bindConsumes fun _ => whileLoop_consumes hexpr hbody'
  · exact skip_traced.bindConsumes fun _ => blockStatement_consumes hexpr hbody n
  · exact beforeSemicolon_consumes hexpr _ _

end Declarations

/-- The statement parser has traces, and a statement that is parsed has a token. -/
theorem parser_consumes (n : Nat) : Consumes (parser n) := by
  induction n with
  | zero => exact overrun_consumes
  | succ n ih => exact statement_consumes (Expr.parser_traced (n + 1)) ih n

theorem programParser_traced (n : Nat) : Traced (programParser n) :=
  declarations_traced _ (declarationOr_consumes (Expr.parser_traced n) (parser_consumes n)) n

end Stmt

/-! ## What comes behind the first end mark -/

section Cut

variable {α : Type} {ts us : List Token}

/-- The lists are the same up to an end mark, which is the last token of the second. -/
def Cut.pairing : Pairing .same where
  Rel ts us := ∃ vs mark after, (∀ v ∈ vs, v.kind ≠ .endMark) ∧ mark.kind = .endMark ∧ ts = vs ++ mark :: after ∧
    us = vs ++ [mark]
  Passes kind := kind ≠ .endMark
  head := by
    rintro ts us ⟨vs, mark, after, -, -, rfl, rfl⟩
    cases vs with
    | nil => exact ⟨_, _, _, _, rfl, rfl, rfl⟩
    | cons v vs => exact ⟨_, _, _, _, rfl, rfl, rfl⟩
  tail := by
    rintro t u ts us ⟨vs, mark, after, hvs, hmark, hts, hus⟩ hpasses
    cases vs with
    | nil =>
      obtain ⟨rfl, -⟩ := List.cons.inj hts
      exact absurd hmark hpasses
    | cons v vs =>
      simp only [List.forall_mem_cons] at hvs
      exact ⟨vs, mark, after, hvs.2, hmark, (List.cons.inj hts).2, (List.cons.inj hus).2⟩
  marked := by
    rintro ts us ⟨vs, mark, after, -, hmark, rfl, rfl⟩
    exact ⟨⟨mark, by simp, hmark⟩, marked_concat vs hmark⟩

theorem Option.eq_of_rel {A : α → α → Prop} (hA : ∀ a b, A a b → a = b) {o o' : Option α} (h : Option.Rel A o o') :
    o = o' := by
  cases h with
  | none => rfl
  | some h => rw [hA _ _ h]

/-- Parsers that are paired by equal tokens, with equal values, run alike. -/
theorem Parser.Paired.run_eq {P : Pairing .same} {A : α → α → Prop} {n m : Nat} {p q : Parser α}
    (h : Paired P A n m p q) (hA : ∀ a b, A a b → a = b) (hrel : P.Rel ts us) (hn : ts.length ≤ n)
    (hm : us.length ≤ m) : run p ts = run q us :=
  (h.run_alike hrel hn hm).eq fun _ _ => Option.eq_of_rel hA

/-- Tokens with an end mark belong together with those up to the first. -/
theorem rel_take_firstMark {tokens : List Token} (h : Marked tokens) :
    Cut.pairing.Rel tokens (tokens.take (firstMark tokens + 1)) := by
  induction tokens with
  | nil => exact absurd h.length_pos (by simp)
  | cons t tokens ih =>
    by_cases ht : t.kind = .endMark
    · have hfirst : firstMark (t :: tokens) = 0 := by simp [firstMark, List.findIdx_cons, ht]
      exact ⟨[], t, tokens, by simp, ht, rfl, by simp [hfirst]⟩
    · have hsingle : ∀ u ∈ [t], u.kind ≠ .endMark := by simpa using ht
      have hfirst : firstMark (t :: tokens) = 1 + firstMark tokens := firstMark_append hsingle tokens
      obtain ⟨vs, mark, after, hvs, hmark, htokens, hcut⟩ := ih (h.tail ht)
      refine ⟨t :: vs, mark, after, by simpa [ht] using hvs, hmark, by rw [htokens]; rfl, ?_⟩
      rw [hfirst, Nat.add_comm 1, List.take_succ_cons, hcut]
      rfl

end Cut

/-- **Parsing ends in front of the first end mark.** Of tokens that end in an end mark, whatever is wrong with them,
only those up to the first end mark are parsed. Parsing comes to an end without a fault, with any bound that is not
below the number of tokens; the cursor does not go past the first end mark and never looks back from the start; every
declaration that is tried in front of another token goes past one; and trees and errors are those of the tokens up to
the first end mark. -/
theorem parsing_ends_at_first_mark {tokens : List Token} {last : Token} (hlast : tokens.getLast? = some last)
    (hmark : last.kind = .endMark) :
    let cut := tokens.take (firstMark tokens + 1)
    firstMark tokens < tokens.length ∧ Stmt.parse tokens = Stmt.parse cut ∧ Expr.parse tokens = Expr.parse cut ∧
      (Stmt.parse tokens).fault = none ∧ (Expr.parse tokens).fault = none ∧
      ∀ n, tokens.length ≤ n →
        run (Stmt.programParser n) tokens = run (Stmt.programParser tokens.length) tokens ∧
        run (Expr.wholeParser n) tokens = run (Expr.wholeParser tokens.length) tokens ∧
        StaysBefore (Stmt.programParser n) tokens ∧ StaysBefore (Expr.wholeParser n) tokens := by
  intro cut
  have hmarked : Marked tokens := ⟨last, List.mem_of_getLast? hlast, hmark⟩
  have hrel : Cut.pairing.Rel tokens cut := rel_take_firstMark hmarked
  have hpasses : ∀ kind, kind ≠ .endMark → Cut.pairing.Passes kind := fun _ hkind => hkind
  have hprogram : ∀ n, tokens.length ≤ n →
      run (Stmt.programParser n) tokens = run (Stmt.programParser cut.length) cut := fun n hn =>
    (Stmt.programParser_paired hpasses n cut.length).run_eq (fun _ _ => Stmt.AllAlike.eq) hrel hn (Nat.le_refl _)
  have hwhole : ∀ n, tokens.length ≤ n →
      run (Expr.wholeParser n) tokens = run (Expr.wholeParser cut.length) cut := fun n hn =>
    (Expr.wholeParser_paired (fun kind _ => hpasses kind) n cut.length).run_eq (fun _ _ => Expr.alike_same_iff.1) hrel hn (Nat.le_refl _)
  have hparse : Stmt.parse tokens = Stmt.parse cut := by
    simp only [Stmt.parse, hprogram _ (Nat.le_refl _)]
  refine ⟨?_, hparse, hwhole _ (Nat.le_refl _), (Stmt.parse_safe hmarked).1, (Expr.parse_safe hmarked).1,
    fun n hn => ?_⟩
  · exact List.findIdx_lt_length_of_exists ⟨last, List.mem_of_getLast? hlast, by simpa using hmark⟩
  · refine ⟨?_, ?_, (Stmt.programParser_traced n).staysBefore tokens, (Expr.wholeParser_traced n).staysBefore tokens⟩
    · rw [hprogram n hn, hprogram _ (Nat.le_refl _)]
    · rw [hwhole n hn, hwhole _ (Nat.le_refl _)]

/-- In `{ ) ;` with an end mark, and `print` with another behind it, the second line is not parsed: the errors are those
of the first. -/
theorem parsing_ends_at_first_mark_second_line :
    let t (kind : TokenKind) (lexeme : String) : Token := ⟨kind, lexeme, none, 1⟩
    let first := [t .leftBrace "\x7b", t .rightParen ")", t .semicolon ";", Token.endOn 1]
    let tokens := first ++ [⟨.kwPrint, "print", none, 2⟩, Token.endOn 2]
    firstMark tokens = 3 ∧ Stmt.parse tokens = Stmt.parse first ∧ Expr.parse tokens = Expr.parse first ∧
      StaysBefore (Stmt.programParser 6) tokens := by
  intro t first tokens
  have hlast : tokens.getLast? = some (Token.endOn 2) := rfl
  obtain ⟨-, hprogram, hexpression, -, -, htraces⟩ := parsing_ends_at_first_mark hlast rfl
  exact ⟨by decide, hprogram, hexpression, (htraces 6 (Nat.le_refl _)).2.2.1⟩

end Lox
