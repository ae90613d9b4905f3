import Lox.Proofs.Expr.Relaxed
import Lox.Proofs.Stmt.Recognition

/-!
The relaxed grammar of statements and declarations: that of `Stmt.Grammar` without its trees, with the expressions of
the relaxed grammar.

* `Part`: what a piece of a program is.
* `Relaxed part ts`: the tokens `ts` are such a piece.
* `Derives.relaxed`: a program of the grammar is one of the relaxed grammar.
* `Relaxed.passed`: the parser of a piece passes over it, with mild complaints at most.

As before, the first branch of an `if` that has an `else` must not dangle.
-/

namespace Lox.Stmt

open Lox.Parser

/-- What a piece of a program is. -/
inductive Part where
  | declarations
  | declaration
  | variableDeclaration
  | statement (ending : Ending)
  | initial
  | clause

/-- The tokens are a piece of a program, where assignments may have other targets than names. -/
inductive Relaxed : Part → List Token → Prop
  | nil : Relaxed .declarations []
  | cons {ts us : List Token} : Relaxed .declaration ts → Relaxed .declarations us → Relaxed .declarations (ts ++ us)
  | declares {ts : List Token} : Relaxed .variableDeclaration ts → Relaxed .declaration ts
  | statement {ts : List Token} {ending : Ending} : Relaxed (.statement ending) ts → Relaxed .declaration ts
  | bare {word name semicolon : Token} : word.kind = .kwVar → name.kind = .identifier →
      semicolon.kind = .semicolon → Relaxed .variableDeclaration [word, name, semicolon]
  | initialized {word name sign semicolon : Token} {ts : List Token} : word.kind = .kwVar → name.kind = .identifier →
      sign.kind = .equal → Expr.Relaxed .assignment ts → semicolon.kind = .semicolon →
      Relaxed .variableDeclaration (word :: name :: sign :: (ts ++ [semicolon]))
  | noInitial {semicolon : Token} : semicolon.kind = .semicolon → Relaxed .initial [semicolon]
  | declaredInitial {ts : List Token} : Relaxed .variableDeclaration ts → Relaxed .initial ts
  | expressionInitial {semicolon : Token} {ts : List Token} : Expr.Relaxed .assignment ts →
      semicolon.kind = .semicolon → Relaxed .initial (ts ++ [semicolon])
  | noClause : Relaxed .clause []
  | clause {ts : List Token} : Expr.Relaxed .assignment ts → Relaxed .clause ts
  | ifThen {word opening closing : Token} {ts us : List Token} {ending : Ending} : word.kind = .kwIf →
      opening.kind = .leftParen → Expr.Relaxed .assignment ts → closing.kind = .rightParen →
      Relaxed (.statement ending) us → Relaxed (.statement .dangling) (word :: opening :: (ts ++ closing :: us))
  | ifThenElse {word opening closing otherwise : Token} {ts us vs : List Token} {ending : Ending} :
      word.kind = .kwIf → opening.kind = .leftParen → Expr.Relaxed .assignment ts → closing.kind = .rightParen →
      Relaxed (.statement .closed) us → otherwise.kind = .kwElse → Relaxed (.statement ending) vs →
      Relaxed (.statement ending) (word :: opening :: (ts ++ closing :: (us ++ otherwise :: vs)))
  | whileLoop {word opening closing : Token} {ts us : List Token} {ending : Ending} : word.kind = .kwWhile →
      opening.kind = .leftParen → Expr.Relaxed .assignment ts → closing.kind = .rightParen →
      Relaxed (.statement ending) us → Relaxed (.statement ending) (word :: opening :: (ts ++ closing :: us))
  | forLoop {word opening semicolon closing : Token} {ts us vs ws : List Token} {ending : Ending} :
      word.kind = .kwFor → opening.kind = .leftParen → Relaxed .initial ts → Relaxed .clause us →
      semicolon.kind = .semicolon → Relaxed .clause vs → closing.kind = .rightParen →
      Relaxed (.statement ending) ws →
      Relaxed (.statement ending) (word :: opening :: (ts ++ (us ++ semicolon :: (vs ++ closing :: ws))))
  | print {word semicolon : Token} {ts : List Token} : word.kind = .kwPrint → Expr.Relaxed .assignment ts →
      semicolon.kind = .semicolon → Relaxed (.statement .closed) (word :: (ts ++ [semicolon]))
  | block {opening closing : Token} {ts : List Token} : opening.kind = .leftBrace → Relaxed .declarations ts →
      closing.kind = .rightBrace → Relaxed (.statement .closed) (opening :: (ts ++ [closing]))
  | expression {semicolon : Token} {ts : List Token} : Expr.Relaxed .assignment ts → semicolon.kind = .semicolon →
      Relaxed (.statement .closed) (ts ++ [semicolon])

theorem Declares.relaxed {ts : List Token} {s : Stmt} (h : Declares ts s) : Relaxed .variableDeclaration ts := by
  cases h with
  | bare hword hname hsemicolon => exact .bare hword hname hsemicolon
  | initialized hword hname hsign hvalue hsemicolon => exact .initialized hword hname hsign hvalue.relaxed hsemicolon

theorem Initial.relaxed {ts : List Token} {o : Option Stmt} (h : Initial ts o) : Relaxed .initial ts := by
  cases h with
  | absent hsemicolon => exact .noInitial hsemicolon
  | declares h => exact .declaredInitial h.relaxed
  | expression hvalue hsemicolon => exact .expressionInitial hvalue.relaxed hsemicolon

theorem Clause.relaxed {ts : List Token} {o : Option Expr} (h : Clause ts o) : Relaxed .clause ts := by
  cases h with
  | absent => exact .noClause
  | present h => exact .clause h.relaxed

/-- the part of a program that a phrase is -/
def Phrase.part : Phrase → Part
  | .declarations _ => .declarations
  | .declaration _ => .declaration
  | .statement _ ending => .statement ending

/-- What is derived is derived in the relaxed grammar. -/
theorem Derives.relaxed {p : Phrase} {ts : List Token} (h : Derives p ts) : Relaxed p.part ts := by
  induction h with
  | nil => exact .nil
  | cons _ _ ih ih' => exact .cons ih ih'
  | declares h => exact .declares h.relaxed
  | statement _ ih => exact .statement ih
  | ifThen hword hopening hcondition hclosing _ ih => exact .ifThen hword hopening hcondition.relaxed hclosing ih
  | ifThenElse hword hopening hcondition hclosing _ hotherwise _ ih ih' =>
    exact .ifThenElse hword hopening hcondition.relaxed hclosing ih hotherwise ih'
  | whileLoop hword hopening hcondition hclosing _ ih => exact .whileLoop hword hopening hcondition.relaxed hclosing ih
  | forLoop hword hopening hinitial hcondition hsemicolon hstep hclosing _ ih =>
    exact .forLoop hword hopening hinitial.relaxed hcondition.relaxed hsemicolon hstep.relaxed hclosing ih
  | print hword hvalue hsemicolon => exact .print hword hvalue.relaxed hsemicolon
  | block hopening _ hclosing ih => exact .block hopening ih hclosing
  | expression hvalue hsemicolon => exact .expression hvalue.relaxed hsemicolon

/-! ## First tokens -/

section First

variable {ts : List Token}

theorem Relaxed.first_of_variableDeclaration (h : Relaxed .variableDeclaration ts) :
    ∃ t us, ts = t :: us ∧ t.kind = .kwVar := by
  cases h with
  | bare hword => exact ⟨_, _, rfl, hword⟩
  | initialized hword => exact ⟨_, _, rfl, hword⟩

/-- A statement has a first token, of a kind that starts one. -/
theorem Relaxed.first_of_statement {ending : Ending} (h : Relaxed (.statement ending) ts) :
    ∃ t us, ts = t :: us ∧ starts t.kind = true := by
  cases h with
  | ifThen hword | ifThenElse hword | whileLoop hword | forLoop hword | print hword | block hword =>
    exact ⟨_, _, rfl, by simp [starts, hword]⟩
  | expression hvalue _ =>
    obtain ⟨t, us, rfl, hstarts, -⟩ := hvalue.first
    exact ⟨t, _, rfl, by simp [starts, hstarts]⟩

/-- A declaration has a first token, which starts a variable declaration or a statement. -/
theorem Relaxed.first_of_declaration (h : Relaxed .declaration ts) :
    ∃ t us, ts = t :: us ∧ (t.kind = .kwVar ∨ starts t.kind = true) := by
  cases h with
  | declares hvar =>
    obtain ⟨t, us, rfl, hkind⟩ := hvar.first_of_variableDeclaration
    exact ⟨t, us, rfl, .inl hkind⟩
  | statement hs =>
    obtain ⟨t, us, rfl, hstarts⟩ := hs.first_of_statement
    exact ⟨t, us, rfl, .inr hstarts⟩

/-- No declarations start with an `else`, nor does what closes them. -/
theorem Relaxed.first_of_declarations (h : Relaxed .declarations ts) (t : Token) (rest : List Token)
    (ht : t.kind ≠ .kwElse) : ∃ u vs, ts ++ t :: rest = u :: vs ∧ u.kind ≠ .kwElse := by
  cases h with
  | nil => exact ⟨t, rest, rfl, ht⟩
  | cons hs _ =>
    obtain ⟨u, vs, rfl, hkind⟩ := hs.first_of_declaration
    refine ⟨u, _, rfl, fun helse => ?_⟩
    rcases hkind with hkind | hkind <;> simp [helse, starts, Expr.starts] at hkind

end First

/-! ## Simple statements -/

section Simple

variable {n : Nat} {ts us rest : List Token}

/-- An expression with a semicolon behind it, made into a statement. -/
theorem beforeSemicolon_passes (h : Expr.Relaxed .assignment ts) {semicolon : Token}
    (hsemicolon : semicolon.kind = .semicolon) (hn : ts.length + rest.length < n) (make : Expr → Stmt)
    (reason : Reason) :
    Passes (do let value ← Expr.parser n; let _ ← expect .semicolon reason; pure (make value))
      (ts ++ semicolon :: rest) rest := by
  refine (h.passed hn (hsemicolon ▸ Expr.Rung.stops_semicolon _)).bind fun value => ?_
  exact passes_expect_bind (by simp) hsemicolon (passes_pure _ rest)

/-- An expression in parentheses, and what comes behind it. -/
theorem inParens_passes {opening closing : Token} (hopening : opening.kind = .leftParen)
    (h : Expr.Relaxed .assignment ts) (hclosing : closing.kind = .rightParen) (hn : ts.length + us.length < n)
    {f : Expr → Parser Stmt} {before after : Reason} (hf : ∀ e, Passes (f e) us rest) :
    Passes (do
        let _ ← expect .leftParen before
        let e ← Expr.parser n
        let _ ← expect .rightParen after
        f e)
      (opening :: (ts ++ closing :: us)) rest := by
  refine passes_expect_bind (by simp) hopening ?_
  refine (h.passed hn (hclosing ▸ Expr.Rung.stops_rightParen _)).bind fun e => ?_
  exact passes_expect_bind (by simp) hclosing (hf e)

end Simple

/-! ## What is derived is passed over -/

/-- The parser of the part passes over the tokens, whatever comes behind them that does not belong to them. -/
def Passed : Part → List Token → Prop
  | .declarations, ts => ∀ (closes : TokenKind → Bool) (n m k : Nat) (t : Token) (rest : List Token),
      (∀ kind, closes kind = true → kind = .rightBrace ∨ kind = .endMark) → closes t.kind = true →
      ts.length + rest.length < n → ts.length + rest.length < m → ts.length + rest.length < k →
      Passes (declarations closes (declarationOr (Expr.parser n) (parser m)) k) (ts ++ t :: rest) (t :: rest)
  | .declaration, ts => ∀ (n m : Nat) (t : Token) (rest : List Token), t.kind ≠ .kwElse →
      ts.length + rest.length < n → ts.length + rest.length < m →
      Passes (declarationOr (Expr.parser n) (parser m)) (ts ++ t :: rest) (t :: rest)
  | .variableDeclaration, ts => ∃ word us, ts = word :: us ∧ word.kind = .kwVar ∧ ∀ (n : Nat) (rest : List Token),
      us.length + rest.length < n → Passes (declaration (Expr.parser n)) (us ++ rest) rest
  | .statement ending, ts => ∀ (n : Nat) (t : Token) (rest : List Token), (ending = .dangling → t.kind ≠ .kwElse) →
      ts.length + rest.length < n → Passes (parser n) (ts ++ t :: rest) (t :: rest)
  | .initial, ts => ∀ (n : Nat) (rest : List Token), ts.length + rest.length ≤ n →
      Passes (forInitial (Expr.parser n)) (ts ++ rest) rest
  | .clause, ts => ∀ (n : Nat) (closing : Token) (rest : List Token) (reason : Reason),
      closing.kind = .semicolon ∨ closing.kind = .rightParen → ts.length + rest.length < n →
      Passes (forClause (Expr.parser n) closing.kind reason) (ts ++ closing :: rest) rest

namespace Passed

variable {ts us vs ws : List Token} {word name opening closing semicolon : Token} {ending : Ending}

theorem nil : Passed .declarations [] := by
  intro closes n m k t rest _ hcloses _ _ hk
  obtain ⟨k, rfl⟩ : ∃ i, k = i + 1 := ⟨k - 1, by omega⟩
  refine passes_peek_bind ?_
  rw [if_pos hcloses]
  exact passes_pure [] _

theorem cons (hs : Relaxed .declaration ts) (hss : Relaxed .declarations us) (h : Passed .declaration ts)
    (h' : Passed .declarations us) : Passed .declarations (ts ++ us) := by
  intro closes n m k t rest hclosers hcloses hn hm hk
  obtain ⟨k, rfl⟩ : ∃ i, k = i + 1 := ⟨k - 1, by omega⟩
  have ht : t.kind ≠ .kwElse := by rcases hclosers _ hcloses with h | h <;> simp [h]
  simp only [List.length_append] at hn hm hk
  obtain ⟨u, vs, hvs, hu⟩ := hss.first_of_declarations t rest ht
  have hlength := congrArg List.length hvs
  simp only [List.length_append, List.length_cons] at hlength
  have hhead := h n m u vs hu (by omega) (by omega)
  obtain ⟨w, ws, rfl, hw⟩ := hs.first_of_declaration
  simp only [List.length_cons] at hn hm hk
  have hopen : closes w.kind = false := by
    cases hclose : closes w.kind with
    | false => rfl
    | true => rcases hclosers _ hclose with h | h <;> simp [h, starts, Expr.starts] at hw
  rw [← hvs] at hhead
  rw [List.append_assoc]
  refine passes_peek_bind ?_
  rw [if_neg (by simp [hopen])]
  refine hhead.recover.bind fun head => ?_
  exact (h' closes n m k t rest hclosers hcloses (by omega) (by omega) (by omega)).bind fun tail => passes_pure _ _

theorem declares (h : Passed .variableDeclaration ts) : Passed .declaration ts := by
  intro n m t rest _ hn _
  obtain ⟨word, us, rfl, hword, hpasses⟩ := h
  simp only [List.length_cons] at hn
  have hfound : Accepts (accept .kwVar) (word :: (us ++ t :: rest)) (some word) (us ++ t :: rest) :=
    accepts_acceptAny_some rfl (by simp [hword]) _
  exact hfound.bindPasses (hpasses n (t :: rest) (by simp; omega))

theorem statement (hs : Relaxed (.statement ending) ts) (h : Passed (.statement ending) ts) :
    Passed .declaration ts := by
  intro n m t rest ht hn hm
  have hpasses := h m t rest (fun _ => ht) hm
  obtain ⟨u, us, rfl, hstarts⟩ := hs.first_of_statement
  have hkind : u.kind ≠ .kwVar := fun hk => by simp [hk, starts, Expr.starts] at hstarts
  have hnone : Accepts (accept .kwVar) (u :: us ++ t :: rest) none (u :: us ++ t :: rest) :=
    accepts_acceptAny_none rfl (by simpa using hkind) _
  exact hnone.bindPasses hpasses

theorem bare (hword : word.kind = .kwVar) (hname : name.kind = .identifier) (hsemicolon : semicolon.kind = .semicolon) :
    Passed .variableDeclaration [word, name, semicolon] := by
  obtain ⟨word', us, heq, hkind, haccepts⟩ := (Declares.bare hword hname hsemicolon).accepted
  exact ⟨word', us, heq, hkind, fun n rest hn => (haccepts n rest hn).passes⟩

theorem initialized {sign : Token} (hword : word.kind = .kwVar) (hname : name.kind = .identifier)
    (hsign : sign.kind = .equal) (hvalue : Expr.Relaxed .assignment ts) (hsemicolon : semicolon.kind = .semicolon) :
    Passed .variableDeclaration (word :: name :: sign :: (ts ++ [semicolon])) := by
  refine ⟨word, name :: sign :: (ts ++ [semicolon]), rfl, hword, fun n rest hn => ?_⟩
  simp only [List.length_cons, List.length_append, List.length_nil] at hn
  have hpasses : Passes (Expr.parser n) (ts ++ semicolon :: rest) (semicolon :: rest) :=
    hvalue.passed (by omega) (hsemicolon ▸ Expr.Rung.stops_semicolon _)
  have hfound : Accepts (accept .equal) (sign :: (ts ++ semicolon :: rest)) (some sign) (ts ++ semicolon :: rest) :=
    accepts_acceptAny_some rfl (by simp [hsign]) _
  rw [List.cons_append, List.cons_append, List.append_assoc]
  refine passes_expect_bind (by simp) hname ?_
  refine (hfound.bindPasses (hpasses.map some)).bind fun initial => ?_
  exact passes_expect_bind (by simp) hsemicolon (passes_pure _ _)

theorem noInitial (hsemicolon : semicolon.kind = .semicolon) : Passed .initial [semicolon] := by
  intro n rest hn
  exact ((Initial.absent hsemicolon).accepted hn).passes

theorem declaredInitial (h : Passed .variableDeclaration ts) : Passed .initial ts := by
  intro n rest hn
  obtain ⟨word, us, rfl, hword, hpasses⟩ := h
  simp only [List.length_cons] at hn
  refine passes_peek_bind ?_
  simp only [hword]
  exact passes_skip_bind (by simp [hword]) ((hpasses n rest (by omega)).map some)

theorem expressionInitial (hvalue : Expr.Relaxed .assignment ts) (hsemicolon : semicolon.kind = .semicolon) :
    Passed .initial (ts ++ [semicolon]) := by
  intro n rest hn
  simp only [List.length_append, List.length_cons, List.length_nil] at hn
  have hpasses : Passes (expressionStatement (Expr.parser n)) (ts ++ semicolon :: rest) rest :=
    beforeSemicolon_passes hvalue hsemicolon (by omega) _ _
  obtain ⟨t, us, rfl, hstarts, -⟩ := hvalue.first
  rw [List.append_assoc]
  refine passes_peek_bind ?_
  split
  · rename_i hkind
    simp [hkind, Expr.starts] at hstarts
  · rename_i hkind
    simp [hkind, Expr.starts] at hstarts
  · exact hpasses.map some

theorem noClause : Passed .clause [] := by
  intro n closing rest reason hclosing hn
  exact (Clause.absent.accepted hclosing hn).passes

theorem clause (h : Expr.Relaxed .assignment ts) : Passed .clause ts := by
  intro n closing rest reason hclosing hn
  have hmark : closing.kind ≠ .endMark := by rcases hclosing with h | h <;> simp [h]
  have hstops : Expr.Rung.assignment.Stops closing.kind := by
    rcases hclosing with h | h <;> rw [h]
    · exact Expr.Rung.stops_semicolon _
    · exact Expr.Rung.stops_rightParen _
  have hpasses := h.passed hn hstops
  obtain ⟨t, us, rfl, hstarts, -⟩ := h.first
  have hkind : t.kind ≠ closing.kind := fun hk => by
    rcases hclosing with h | h <;> simp [hk, h, Expr.starts] at hstarts
  refine Passes.bind (passes_peek_bind ?_) fun clause => passes_expect_bind hmark rfl (passes_pure _ _)
  rw [if_neg hkind]
  exact hpasses.map some

theorem ifThen (hword : word.kind = .kwIf) (hopening : opening.kind = .leftParen)
    (hcondition : Expr.Relaxed .assignment ts) (hclosing : closing.kind = .rightParen)
    (h : Passed (.statement ending) us) : Passed (.statement .dangling) (word :: opening :: (ts ++ closing :: us)) := by
  intro n t rest ht hn
  obtain ⟨n, rfl⟩ : ∃ i, n = i + 1 := ⟨n - 1, by omega⟩
  simp only [List.length_cons, List.length_append] at hn
  have hnone : Accepts (accept .kwElse) (t :: rest) none (t :: rest) :=
    accepts_acceptAny_none rfl (by simpa using ht rfl) rest
  rw [List.cons_append, List.cons_append, List.append_assoc, List.cons_append]
  refine passes_peek_bind ?_
  simp only [hword]
  refine passes_skip_bind (by simp [hword]) (inParens_passes hopening hcondition hclosing (by simp; omega) fun e => ?_)
  refine (h n t rest (fun _ => ht rfl) (by omega)).bind fun yes => ?_
  exact hnone.bindPasses (passes_pure _ _)

theorem ifThenElse {otherwise : Token} (hword : word.kind = .kwIf) (hopening : opening.kind = .leftParen)
    (hcondition : Expr.Relaxed .assignment ts) (hclosing : closing.kind = .rightParen)
    (h : Passed (.statement .closed) us) (hotherwise : otherwise.kind = .kwElse) (h' : Passed (.statement ending) vs) :
    Passed (.statement ending) (word :: opening :: (ts ++ closing :: (us ++ otherwise :: vs))) := by
  intro n t rest ht hn
  obtain ⟨n, rfl⟩ : ∃ i, n = i + 1 := ⟨n - 1, by omega⟩
  simp only [List.length_cons, List.length_append] at hn
  have hyes := h n otherwise (vs ++ t :: rest) nofun (by simp; omega)
  have hfound : Accepts (accept .kwElse) (otherwise :: (vs ++ t :: rest)) (some otherwise) (vs ++ t :: rest) :=
    accepts_acceptAny_some rfl (by simpa using hotherwise) _
  rw [List.cons_append, List.cons_append, List.append_assoc, List.cons_append, List.append_assoc, List.cons_append]
  refine passes_peek_bind ?_
  simp only [hword]
  refine passes_skip_bind (by simp [hword]) (inParens_passes hopening hcondition hclosing (by simp; omega) fun e => ?_)
  refine hyes.bind fun yes => hfound.bindPasses ?_
  exact (h' n t rest ht (by omega)).bind fun no => passes_pure _ _

theorem whileLoop (hword : word.kind = .kwWhile) (hopening : opening.kind = .leftParen)
    (hcondition : Expr.Relaxed .assignment ts) (hclosing : closing.kind = .rightParen)
    (h : Passed (.statement ending) us) : Passed (.statement ending) (word :: opening :: (ts ++ closing :: us)) := by
  intro n t rest ht hn
  obtain ⟨n, rfl⟩ : ∃ i, n = i + 1 := ⟨n - 1, by omega⟩
  simp only [List.length_cons, List.length_append] at hn
  rw [List.cons_append, List.cons_append, List.append_assoc, List.cons_append]
  refine passes_peek_bind ?_
  simp only [hword]
  refine passes_skip_bind (by simp [hword]) (inParens_passes hopening hcondition hclosing (by simp; omega) fun e => ?_)
  exact (h n t rest ht (by omega)).bind fun body => passes_pure _ _

theorem forLoop (hword : word.kind = .kwFor) (hopening : opening.kind = .leftParen) (hinitial : Passed .initial ts)
    (hcondition : Passed .clause us) (hsemicolon : semicolon.kind = .semicolon) (hstep : Passed .clause vs)
    (hclosing : closing.kind = .rightParen) (h : Passed (.statement ending) ws) :
    Passed (.statement ending) (word :: opening :: (ts ++ (us ++ semicolon :: (vs ++ closing :: ws)))) := by
  intro n t rest ht hn
  obtain ⟨n, rfl⟩ : ∃ i, n = i + 1 := ⟨n - 1, by omega⟩
  simp only [List.length_cons, List.length_append] at hn
  have hsecond := hcondition (n + 1) semicolon (vs ++ closing :: (ws ++ t :: rest)) .semicolonAfterLoopCondition
    (.inl hsemicolon) (by simp; omega)
  have hthird := hstep (n + 1) closing (ws ++ t :: rest) .parenAfterForClauses (.inr hclosing) (by simp; omega)
  rw [hsemicolon] at hsecond
  rw [hclosing] at hthird
  simp only [List.cons_append, List.append_assoc]
  refine passes_peek_bind ?_
  simp only [hword]
  refine passes_skip_bind (by simp [hword]) (passes_expect_bind (by simp) hopening ?_)
  refine (hinitial (n + 1) _ (by simp; omega)).bind fun initial => ?_
  refine hsecond.bind fun condition => hthird.bind fun step => ?_
  exact (h n t rest ht (by omega)).bind fun body => passes_pure _ _

theorem print (hword : word.kind = .kwPrint) (hvalue : Expr.Relaxed .assignment ts)
    (hsemicolon : semicolon.kind = .semicolon) : Passed (.statement .closed) (word :: (ts ++ [semicolon])) := by
  intro n t rest _ hn
  obtain ⟨n, rfl⟩ : ∃ i, n = i + 1 := ⟨n - 1, by omega⟩
  simp only [List.length_cons, List.length_append, List.length_nil] at hn
  rw [List.cons_append, List.append_assoc]
  refine passes_peek_bind ?_
  simp only [hword]
  exact passes_skip_bind (by simp [hword]) (beforeSemicolon_passes hvalue hsemicolon (by simp; omega) _ _)

theorem block (hopening : opening.kind = .leftBrace) (h : Passed .declarations ts)
    (hclosing : closing.kind = .rightBrace) : Passed (.statement .closed) (opening :: (ts ++ [closing])) := by
  intro n t rest _ hn
  obtain ⟨n, rfl⟩ : ∃ i, n = i + 1 := ⟨n - 1, by omega⟩
  simp only [List.length_cons, List.length_append, List.length_nil] at hn
  have hclosers : ∀ kind, closesBlock kind = true → kind = .rightBrace ∨ kind = .endMark := by simp [closesBlock]
  have hinner := h closesBlock (n + 1) n n closing (t :: rest) hclosers (by simp [closesBlock, hclosing])
    (by simp; omega) (by simp; omega) (by simp; omega)
  rw [List.cons_append, List.append_assoc]
  refine passes_peek_bind ?_
  simp only [hopening]
  refine passes_skip_bind (by simp [hopening]) (hinner.bind fun inner => ?_)
  exact passes_expect_bind (by simp) hclosing (passes_pure _ _)

theorem expression (hvalue : Expr.Relaxed .assignment ts) (hsemicolon : semicolon.kind = .semicolon) :
    Passed (.statement .closed) (ts ++ [semicolon]) := by
  intro n t rest _ hn
  obtain ⟨n, rfl⟩ : ∃ i, n = i + 1 := ⟨n - 1, by omega⟩
  simp only [List.length_append, List.length_cons, List.length_nil] at hn
  have hpasses : Passes (expressionStatement (Expr.parser (n + 1))) (ts ++ semicolon :: t :: rest) (t :: rest) :=
    beforeSemicolon_passes hvalue hsemicolon (by simp; omega) _ _
  obtain ⟨u, us, rfl, hstarts, -⟩ := hvalue.first
  rw [List.append_assoc]
  refine passes_peek_bind ?_
  split
  case h_6 => exact hpasses
  all_goals
    rename_i hkind
    simp [hkind, Expr.starts] at hstarts

end Passed

/-- A piece of a program is passed over by its parser. -/
theorem Relaxed.passed {part : Part} {ts : List Token} (h : Relaxed part ts) : Passed part ts := by
  induction h with
  | nil => exact .nil
  | cons hs hss ih ih' => exact .cons hs hss ih ih'
  | declares _ ih => exact .declares ih
  | statement hs ih => exact .statement hs ih
  | bare hword hname hsemicolon => exact .bare hword hname hsemicolon
  | initialized hword hname hsign hvalue hsemicolon => exact .initialized hword hname hsign hvalue hsemicolon
  | noInitial hsemicolon => exact .noInitial hsemicolon
  | declaredInitial _ ih => exact .declaredInitial ih
  | expressionInitial hvalue hsemicolon => exact .expressionInitial hvalue hsemicolon
  | noClause => exact .noClause
  | clause h => exact .clause h
  | ifThen hword hopening hcondition hclosing _ ih => exact .ifThen hword hopening hcondition hclosing ih
  | ifThenElse hword hopening hcondition hclosing _ hotherwise _ ih ih' =>
    exact .ifThenElse hword hopening hcondition hclosing ih hotherwise ih'
  | whileLoop hword hopening hcondition hclosing _ ih => exact .whileLoop hword hopening hcondition hclosing ih
  | forLoop hword hopening _ _ hsemicolon _ hclosing _ ihinitial ihcondition ihstep ih =>
    exact .forLoop hword hopening ihinitial ihcondition hsemicolon ihstep hclosing ih
  | print hword hvalue hsemicolon => exact .print hword hvalue hsemicolon
  | block hopening _ hclosing ih => exact .block hopening ih hclosing
  | expression hvalue hsemicolon => exact .expression hvalue hsemicolon

end Lox.Stmt
