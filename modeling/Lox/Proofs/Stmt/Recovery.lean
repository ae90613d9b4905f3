import Lox.Proofs.Stmt.Scrap

/-!
Recovery is local: a broken simple statement costs itself and nothing else.

* `Inserted p ts p' ts' errors`: the phrase `p'` is `p` with scraps between its declarations, on all
  levels, and the errors are those of the scraps.
* `Recovers p ts errors`: the parser of the phrase makes its tree of the tokens, with these errors.

There is one lemma for each rule of the grammar, and one for a scrap.
-/

namespace Lox.Stmt

open Lox.Parser

/-! ## Scraps between declarations -/

/-- The phrase `p'`, on the tokens `ts'`, is the phrase `p`, on the tokens `ts`, with scraps between its
declarations, in it and in blocks inside it. A scrap adds the statement that it is, or none, and its errors. -/
inductive Inserted : Phrase → List Token → Phrase → List Token → List SyntaxError → Prop
  | unchanged {p : Phrase} {ts : List Token} : Derives p ts → Inserted p ts p ts []
  | scrap {tokens ts ts' : List Token} {semicolon mark : Token} {ss ss' : List Stmt} {errors : List SyntaxError} :
      Scrap tokens semicolon → mark.kind = .endMark →
      Inserted (.declarations ss) ts (.declarations ss') ts' errors →
      Inserted (.declarations ss) ts
        (.declarations ((parse (tokens ++ [semicolon, mark])).result ++ ss')) (tokens ++ semicolon :: ts')
        ((parse (tokens ++ [semicolon, mark])).errors ++ errors)
  | cons {ts ts' us us' : List Token} {s s' : Stmt} {ss ss' : List Stmt} {errors errors' : List SyntaxError} :
      Inserted (.declaration s) ts (.declaration s') ts' errors →
      Inserted (.declarations ss) us (.declarations ss') us' errors' →
      Inserted (.declarations (s :: ss)) (ts ++ us) (.declarations (s' :: ss')) (ts' ++ us') (errors ++ errors')
  | statement {ts ts' : List Token} {s s' : Stmt} {ending : Ending} {errors : List SyntaxError} :
      Inserted (.statement s ending) ts (.statement s' ending) ts' errors →
      Inserted (.declaration s) ts (.declaration s') ts' errors
  | ifThen {word opening closing : Token} {ts us us' : List Token} {condition : Expr} {yes yes' : Stmt}
      {ending : Ending} {errors : List SyntaxError} : word.kind = .kwIf → opening.kind = .leftParen →
      Expr.Derives .assignment ts condition → closing.kind = .rightParen →
      Inserted (.statement yes ending) us (.statement yes' ending) us' errors →
      Inserted (.statement (branch condition yes none) .dangling) (word :: opening :: (ts ++ closing :: us))
        (.statement (branch condition yes' none) .dangling) (word :: opening :: (ts ++ closing :: us')) errors
  | ifThenElse {word opening closing otherwise : Token} {ts us us' vs vs' : List Token} {condition : Expr}
      {yes yes' no no' : Stmt} {ending : Ending} {errors errors' : List SyntaxError} : word.kind = .kwIf →
      opening.kind = .leftParen → Expr.Derives .assignment ts condition → closing.kind = .rightParen →
      Inserted (.statement yes .closed) us (.statement yes' .closed) us' errors → otherwise.kind = .kwElse →
      Inserted (.statement no ending) vs (.statement no' ending) vs' errors' →
      Inserted (.statement (branch condition yes (some no)) ending)
        (word :: opening :: (ts ++ closing :: (us ++ otherwise :: vs)))
        (.statement (branch condition yes' (some no')) ending)
        (word :: opening :: (ts ++ closing :: (us' ++ otherwise :: vs'))) (errors ++ errors')
  | whileLoop {word opening closing : Token} {ts us us' : List Token} {condition : Expr} {body body' : Stmt}
      {ending : Ending} {errors : List SyntaxError} : word.kind = .kwWhile → opening.kind = .leftParen →
      Expr.Derives .assignment ts condition → closing.kind = .rightParen →
      Inserted (.statement body ending) us (.statement body' ending) us' errors →
      Inserted (.statement (loop condition body) ending) (word :: opening :: (ts ++ closing :: us))
        (.statement (loop condition body') ending) (word :: opening :: (ts ++ closing :: us')) errors
  | forLoop {word opening semicolon closing : Token} {ts us vs ws ws' : List Token} {initial : Option Stmt}
      {condition step : Option Expr} {body body' : Stmt} {ending : Ending} {errors : List SyntaxError} :
      word.kind = .kwFor → opening.kind = .leftParen → Initial ts initial → Clause us condition →
      semicolon.kind = .semicolon → Clause vs step → closing.kind = .rightParen →
      Inserted (.statement body ending) ws (.statement body' ending) ws' errors →
      Inserted (.statement (forLoop initial condition step body) ending)
        (word :: opening :: (ts ++ (us ++ semicolon :: (vs ++ closing :: ws))))
        (.statement (forLoop initial condition step body') ending)
        (word :: opening :: (ts ++ (us ++ semicolon :: (vs ++ closing :: ws')))) errors
  | block {opening closing : Token} {ts ts' : List Token} {body body' : List Stmt} {errors : List SyntaxError} :
      opening.kind = .leftBrace → Inserted (.declarations body) ts (.declarations body') ts' errors →
      closing.kind = .rightBrace →
      Inserted (.statement (block body) .closed) (opening :: (ts ++ [closing]))
        (.statement (block body') .closed) (opening :: (ts' ++ [closing])) errors

namespace Inserted

variable {p p' : Phrase} {ts ts' : List Token} {errors : List SyntaxError}

/-- What scraps are put into is derived by the grammar. -/
theorem derives (h : Inserted p ts p' ts' errors) : Derives p ts := by
  induction h with
  | unchanged h => exact h
  | scrap _ _ _ ih => exact ih
  | cons _ _ ih ih' => exact .cons ih ih'
  | statement _ ih => exact .statement ih
  | ifThen hword hopening hcondition hclosing _ ih => exact .ifThen hword hopening hcondition hclosing ih
  | ifThenElse hword hopening hcondition hclosing _ hotherwise _ ih ih' =>
    exact .ifThenElse hword hopening hcondition hclosing ih hotherwise ih'
  | whileLoop hword hopening hcondition hclosing _ ih => exact .whileLoop hword hopening hcondition hclosing ih
  | forLoop hword hopening hinitial hcondition hsemicolon hstep hclosing _ ih =>
    exact .forLoop hword hopening hinitial hcondition hsemicolon hstep hclosing ih
  | block hopening _ hclosing ih => exact .block hopening ih hclosing

theorem first_of_statement {s s' : Stmt} {ending ending' : Ending}
    (h : Inserted (.statement s ending) ts (.statement s' ending') ts' errors) :
    ∃ t us, ts' = t :: us ∧ starts t.kind = true := by
  cases h with
  | unchanged h => exact h.first_of_statement
  | ifThen hword | ifThenElse hword | whileLoop hword | forLoop hword | block hword =>
    exact ⟨_, _, rfl, by simp [starts, hword]⟩

theorem first_of_declaration {s s' : Stmt} (h : Inserted (.declaration s) ts (.declaration s') ts' errors) :
    ∃ t us, ts' = t :: us ∧ (t.kind = .kwVar ∨ starts t.kind = true) := by
  cases h with
  | unchanged h => exact h.first_of_declaration
  | statement h =>
    obtain ⟨t, us, rfl, hstarts⟩ := h.first_of_statement
    exact ⟨t, us, rfl, .inr hstarts⟩

/-- No `else` comes first, with scraps or without. -/
theorem first_of_declarations {ss ss' : List Stmt}
    (h : Inserted (.declarations ss) ts (.declarations ss') ts' errors) (t : Token) (rest : List Token)
    (ht : t.kind ≠ .kwElse) : ∃ u vs, ts' ++ t :: rest = u :: vs ∧ u.kind ≠ .kwElse := by
  cases h with
  | unchanged h => exact Accepted.first_of_declarations h t rest ht
  | @scrap tokens _ ts' semicolon _ _ _ _ hscrap _ _ =>
    rw [List.append_assoc, List.cons_append]
    obtain ⟨u, vs, hvs⟩ := List.exists_cons_of_ne_nil (by simp : tokens ++ semicolon :: (ts' ++ t :: rest) ≠ [])
    have hkind := hscrap.kind_of_cons hvs
    simp only [List.mem_cons, not_or] at hkind
    exact ⟨u, vs, hvs, hkind.2.2.2.1⟩
  | cons hs _ =>
    obtain ⟨u, vs, rfl, hkind⟩ := hs.first_of_declaration
    refine ⟨u, _, rfl, fun helse => ?_⟩
    rcases hkind with hkind | hkind <;> simp [helse, starts, Expr.starts] at hkind

end Inserted

/-- The parser of the phrase makes its tree of the tokens, with complaints that are the errors, whatever comes
behind them that does not belong to them. -/
def Recovers : Phrase → List Token → List SyntaxError → Prop
  | .declarations ss, ts, errors =>
      ∀ (closes : TokenKind → Bool) (n m k : Nat) (t : Token) (rest : List Token),
      (∀ kind, closes kind = true → kind = .rightBrace ∨ kind = .endMark) → closes t.kind = true →
      Marked (t :: rest) → ts.length + rest.length < n → ts.length + rest.length < m →
      ts.length + rest.length < k → ∃ complaints, complaints.map Complaint.toError = errors ∧
        Yields (declarations closes (declarationOr (Expr.parser n) (parser m)) k) (ts ++ t :: rest) ss (t :: rest)
          complaints
  | .declaration s, ts, errors => ∀ (n m : Nat) (t : Token) (rest : List Token), t.kind ≠ .kwElse →
      Marked (t :: rest) → ts.length + rest.length < n → ts.length + rest.length < m →
      ∃ complaints, complaints.map Complaint.toError = errors ∧
        Yields (declarationOr (Expr.parser n) (parser m)) (ts ++ t :: rest) s (t :: rest) complaints
  | .statement s ending, ts, errors => ∀ (n : Nat) (t : Token) (rest : List Token),
      (ending = .dangling → t.kind ≠ .kwElse) → Marked (t :: rest) → ts.length + rest.length < n →
      ∃ complaints, complaints.map Complaint.toError = errors ∧
        Yields (parser n) (ts ++ t :: rest) s (t :: rest) complaints

namespace Recovers

variable {ts us vs ws : List Token} {word opening closing semicolon : Token} {condition : Expr}
  {yes no body : Stmt} {ending : Ending} {errors errors' : List SyntaxError}

theorem of_derives {p : Phrase} (h : Derives p ts) : Recovers p ts [] := by
  have haccepted := h.accepted
  cases p with
  | declarations ss =>
    intro closes n m k t rest hclosers hcloses _ hn hm hk
    exact ⟨[], rfl, (haccepted closes n m k t rest hclosers hcloses hn hm hk).yields⟩
  | declaration s =>
    intro n m t rest ht _ hn hm
    exact ⟨[], rfl, (haccepted n m t rest ht hn hm).yields⟩
  | statement s ending =>
    intro n t rest ht _ hn
    exact ⟨[], rfl, (haccepted n t rest ht hn).yields⟩

theorem scrap {tokens : List Token} {mark : Token} {ss : List Stmt} (hscrap : Scrap tokens semicolon)
    (hmark : mark.kind = .endMark) (h : Recovers (.declarations ss) ts errors) :
    Recovers (.declarations ((parse (tokens ++ [semicolon, mark])).result ++ ss)) (tokens ++ semicolon :: ts)
      ((parse (tokens ++ [semicolon, mark])).errors ++ errors) := by
  intro closes n m k t rest hclosers hcloses hmarked hn hm hk
  obtain ⟨k, rfl⟩ : ∃ i, k = i + 1 := ⟨k - 1, by omega⟩
  simp only [List.length_append, List.length_cons] at hn hm hk
  obtain ⟨more, rfl, htail⟩ := h closes n m k t rest hclosers hcloses hmarked (by omega) (by omega) (by omega)
  have hrest := hmarked.append ts
  obtain ⟨o, made, hparse, hhead⟩ := hscrap.parse_eq (n := n) (m := m) hmark hrest (by simp; omega) (by simp; omega)
  rw [hparse]
  refine ⟨made ++ more, List.map_append, ?_⟩
  obtain ⟨u, us, hus⟩ := List.exists_cons_of_ne_nil (by simp : tokens ++ semicolon :: (ts ++ t :: rest) ≠ [])
  have hkind := hscrap.kind_of_cons hus
  simp only [List.mem_cons, not_or] at hkind
  have hopen : closes u.kind = false := by
    cases hclose : closes u.kind with
    | false => rfl
    | true => rcases hclosers _ hclose with h | h <;> simp [h] at hkind
  rw [List.append_assoc, List.cons_append]
  rw [hus] at hhead ⊢
  exact declarations_step hopen hhead htail

theorem cons {s : Stmt} {ss : List Stmt} (hfirst : ∃ t us, ts = t :: us ∧ (t.kind = .kwVar ∨ starts t.kind = true))
    (hnext : ∀ (t : Token) (rest : List Token), t.kind ≠ .kwElse →
      ∃ u vs, us ++ t :: rest = u :: vs ∧ u.kind ≠ .kwElse)
    (h : Recovers (.declaration s) ts errors) (h' : Recovers (.declarations ss) us errors') :
    Recovers (.declarations (s :: ss)) (ts ++ us) (errors ++ errors') := by
  intro closes n m k t rest hclosers hcloses hmarked hn hm hk
  obtain ⟨k, rfl⟩ : ∃ i, k = i + 1 := ⟨k - 1, by omega⟩
  have ht : t.kind ≠ .kwElse := by rcases hclosers _ hcloses with h | h <;> simp [h]
  simp only [List.length_append] at hn hm hk
  obtain ⟨u, vs, hvs, hu⟩ := hnext t rest ht
  have hlength := congrArg List.length hvs
  simp only [List.length_append, List.length_cons] at hlength
  have hmarked' : Marked (u :: vs) := hvs ▸ hmarked.append us
  obtain ⟨made, rfl, hhead⟩ := h n m u vs hu hmarked' (by omega) (by omega)
  obtain ⟨w, ws, rfl, hw⟩ := hfirst
  simp only [List.length_cons] at hn hm hk
  obtain ⟨more, rfl, htail⟩ := h' closes n m k t rest hclosers hcloses hmarked (by omega) (by omega) (by omega)
  refine ⟨made ++ more, List.map_append, ?_⟩
  have hopen : closes w.kind = false := by
    cases hclose : closes w.kind with
    | false => rfl
    | true => rcases hclosers _ hclose with h | h <;> simp [h, starts, Expr.starts] at hw
  rw [← hvs] at hhead
  rw [List.append_assoc]
  exact declarations_step hopen hhead.recover htail

theorem statement {s : Stmt} (hfirst : ∃ t us, ts = t :: us ∧ starts t.kind = true)
    (h : Recovers (.statement s ending) ts errors) : Recovers (.declaration s) ts errors := by
  intro n m t rest ht hmarked hn hm
  obtain ⟨complaints, herrors, hyields⟩ := h m t rest (fun _ => ht) hmarked hm
  refine ⟨complaints, herrors, ?_⟩
  obtain ⟨u, us, rfl, hstarts⟩ := hfirst
  have hkind : u.kind ≠ .kwVar := fun hk => by simp [hk, starts, Expr.starts] at hstarts
  exact (accepts_acceptAny_none rfl (by simpa using hkind) _).bindYields hyields

/-- An expression in parentheses, and what comes behind it. -/
theorem inParens_yields {e : Expr} {n : Nat} {rest : List Token} (hopening : opening.kind = .leftParen)
    (he : Expr.Derives .assignment ts e) (hclosing : closing.kind = .rightParen) (hn : ts.length + us.length < n)
    {f : Expr → Parser Stmt} {before after : Reason} {s : Stmt} {complaints : List Complaint}
    (hf : Yields (f e) us s rest complaints) :
    Yields (do
        let _ ← expect .leftParen before
        let e ← Expr.parser n
        let _ ← expect .rightParen after
        f e)
      (opening :: (ts ++ closing :: us)) s rest complaints := by
  have hinside := he.accepted hn (hclosing ▸ Expr.Rung.stops_rightParen _)
  refine ((accepts_expect_iff (by simp)).2 ⟨rfl, hopening⟩).bindYields (hinside.bindYields ?_)
  exact ((accepts_expect_iff (by simp)).2 ⟨rfl, hclosing⟩).bindYields hf

theorem ifThen (hword : word.kind = .kwIf) (hopening : opening.kind = .leftParen)
    (hcondition : Expr.Derives .assignment ts condition) (hclosing : closing.kind = .rightParen)
    (h : Recovers (.statement yes ending) us errors) :
    Recovers (.statement (branch condition yes none) .dangling) (word :: opening :: (ts ++ closing :: us)) errors := by
  intro n t rest ht hmarked hn
  obtain ⟨n, rfl⟩ : ∃ i, n = i + 1 := ⟨n - 1, by omega⟩
  simp only [List.length_cons, List.length_append] at hn
  obtain ⟨complaints, herrors, hyes⟩ := h n t rest (fun _ => ht rfl) hmarked (by omega)
  refine ⟨complaints, herrors, ?_⟩
  have hnone : Accepts (accept .kwElse) (t :: rest) none (t :: rest) :=
    accepts_acceptAny_none rfl (by simpa using ht rfl) rest
  simp only [List.cons_append, List.append_assoc]
  refine yields_peek_bind ?_
  simp only [hword]
  refine (accepts_skip (by simp [hword]) _).bindYields (inParens_yields hopening hcondition hclosing (by simp; omega) ?_)
  exact hyes.bindAccepts (hnone.bind (accepts_pure_iff.2 ⟨rfl, rfl⟩))

theorem ifThenElse {otherwise : Token} (hword : word.kind = .kwIf) (hopening : opening.kind = .leftParen)
    (hcondition : Expr.Derives .assignment ts condition) (hclosing : closing.kind = .rightParen)
    (h : Recovers (.statement yes .closed) us errors) (hotherwise : otherwise.kind = .kwElse)
    (h' : Recovers (.statement no ending) vs errors') :
    Recovers (.statement (branch condition yes (some no)) ending)
      (word :: opening :: (ts ++ closing :: (us ++ otherwise :: vs))) (errors ++ errors') := by
  intro n t rest ht hmarked hn
  obtain ⟨n, rfl⟩ : ∃ i, n = i + 1 := ⟨n - 1, by omega⟩
  simp only [List.length_cons, List.length_append] at hn
  have hmarked' : Marked (otherwise :: (vs ++ t :: rest)) := (hmarked.append vs).append [otherwise]
  obtain ⟨made, rfl, hyes⟩ := h n otherwise (vs ++ t :: rest) nofun hmarked' (by simp; omega)
  obtain ⟨more, rfl, hno⟩ := h' n t rest ht hmarked (by omega)
  refine ⟨made ++ more, List.map_append, ?_⟩
  have hfound : Accepts (accept .kwElse) (otherwise :: (vs ++ t :: rest)) (some otherwise) (vs ++ t :: rest) :=
    accepts_acceptAny_some rfl (by simpa using hotherwise) _
  simp only [List.cons_append, List.append_assoc]
  refine yields_peek_bind ?_
  simp only [hword]
  refine (accepts_skip (by simp [hword]) _).bindYields (inParens_yields hopening hcondition hclosing (by simp; omega) ?_)
  exact hyes.bind (hfound.bindYields (hno.bindAccepts (accepts_pure_iff.2 ⟨rfl, rfl⟩)))

theorem whileLoop (hword : word.kind = .kwWhile) (hopening : opening.kind = .leftParen)
    (hcondition : Expr.Derives .assignment ts condition) (hclosing : closing.kind = .rightParen)
    (h : Recovers (.statement body ending) us errors) :
    Recovers (.statement (loop condition body) ending) (word :: opening :: (ts ++ closing :: us)) errors := by
  intro n t rest ht hmarked hn
  obtain ⟨n, rfl⟩ : ∃ i, n = i + 1 := ⟨n - 1, by omega⟩
  simp only [List.length_cons, List.length_append] at hn
  obtain ⟨complaints, herrors, hbody⟩ := h n t rest ht hmarked (by omega)
  refine ⟨complaints, herrors, ?_⟩
  simp only [List.cons_append, List.append_assoc]
  refine yields_peek_bind ?_
  simp only [hword]
  refine (accepts_skip (by simp [hword]) _).bindYields (inParens_yields hopening hcondition hclosing (by simp; omega) ?_)
  exact hbody.bindAccepts (accepts_pure_iff.2 ⟨rfl, rfl⟩)

theorem forLoop {initial : Option Stmt} {condition step : Option Expr} (hword : word.kind = .kwFor)
    (hopening : opening.kind = .leftParen) (hinitial : Initial ts initial) (hcondition : Clause us condition)
    (hsemicolon : semicolon.kind = .semicolon) (hstep : Clause vs step) (hclosing : closing.kind = .rightParen)
    (h : Recovers (.statement body ending) ws errors) :
    Recovers (.statement (Stmt.forLoop initial condition step body) ending)
      (word :: opening :: (ts ++ (us ++ semicolon :: (vs ++ closing :: ws)))) errors := by
  intro n t rest ht hmarked hn
  obtain ⟨n, rfl⟩ : ∃ i, n = i + 1 := ⟨n - 1, by omega⟩
  simp only [List.length_cons, List.length_append] at hn
  obtain ⟨complaints, herrors, hbody⟩ := h n t rest ht hmarked (by omega)
  refine ⟨complaints, herrors, ?_⟩
  have hfirst : Accepts (forInitial (Expr.parser (n + 1)))
      (ts ++ (us ++ semicolon :: (vs ++ closing :: (ws ++ t :: rest)))) initial
      (us ++ semicolon :: (vs ++ closing :: (ws ++ t :: rest))) :=
    hinitial.accepted (by simp; omega)
  have hsecond : Accepts (forClause (Expr.parser (n + 1)) .semicolon .semicolonAfterLoopCondition)
      (us ++ semicolon :: (vs ++ closing :: (ws ++ t :: rest))) condition (vs ++ closing :: (ws ++ t :: rest)) :=
    hsemicolon ▸ hcondition.accepted (.inl hsemicolon) (by simp; omega)
  have hthird : Accepts (forClause (Expr.parser (n + 1)) .rightParen .parenAfterForClauses)
      (vs ++ closing :: (ws ++ t :: rest)) step (ws ++ t :: rest) :=
    hclosing ▸ hstep.accepted (.inr hclosing) (by simp; omega)
  simp only [List.cons_append, List.append_assoc]
  refine yields_peek_bind ?_
  simp only [hword]
  refine (accepts_skip (by simp [hword]) _).bindYields ?_
  refine ((accepts_expect_iff (by simp)).2 ⟨rfl, hopening⟩).bindYields (hfirst.bindYields ?_)
  exact hsecond.bindYields (hthird.bindYields (hbody.bindAccepts (accepts_pure_iff.2 ⟨rfl, rfl⟩)))

theorem block {inner : List Stmt} (hopening : opening.kind = .leftBrace)
    (h : Recovers (.declarations inner) ts errors) (hclosing : closing.kind = .rightBrace) :
    Recovers (.statement (Stmt.block inner) .closed) (opening :: (ts ++ [closing])) errors := by
  intro n t rest _ hmarked hn
  obtain ⟨n, rfl⟩ : ∃ i, n = i + 1 := ⟨n - 1, by omega⟩
  simp only [List.length_cons, List.length_append, List.length_nil] at hn
  have hclosers : ∀ kind, closesBlock kind = true → kind = .rightBrace ∨ kind = .endMark := by
    simp [closesBlock]
  have hmarked' : Marked (closing :: t :: rest) := hmarked.append [closing]
  obtain ⟨complaints, herrors, hinner⟩ := h closesBlock (n + 1) n n closing (t :: rest) hclosers
    (by simp [closesBlock, hclosing]) hmarked' (by simp; omega) (by simp; omega) (by simp; omega)
  refine ⟨complaints, herrors, ?_⟩
  simp only [List.cons_append, List.append_assoc, List.nil_append]
  refine yields_peek_bind ?_
  simp only [hopening]
  refine (accepts_skip (by simp [hopening]) _).bindYields ?_
  exact hinner.bindAccepts (accepts_expect_bind (by simp) hclosing (accepts_pure_iff.2 ⟨rfl, rfl⟩))

end Recovers

/-- Phrases with scraps are parsed to their trees, with the errors of the scraps. -/
theorem Inserted.recovers {p p' : Phrase} {ts ts' : List Token} {errors : List SyntaxError}
    (h : Inserted p ts p' ts' errors) : Recovers p' ts' errors := by
  induction h with
  | unchanged h => exact .of_derives h
  | scrap hscrap hmark _ ih => exact .scrap hscrap hmark ih
  | cons hs hss ih ih' => exact .cons hs.first_of_declaration hss.first_of_declarations ih ih'
  | statement hs ih => exact .statement hs.first_of_statement ih
  | ifThen hword hopening hcondition hclosing _ ih => exact .ifThen hword hopening hcondition hclosing ih
  | ifThenElse hword hopening hcondition hclosing _ hotherwise _ ih ih' =>
    exact .ifThenElse hword hopening hcondition hclosing ih hotherwise ih'
  | whileLoop hword hopening hcondition hclosing _ ih => exact .whileLoop hword hopening hcondition hclosing ih
  | forLoop hword hopening hinitial hcondition hsemicolon hstep hclosing _ ih =>
    exact .forLoop hword hopening hinitial hcondition hsemicolon hstep hclosing ih
  | block hopening _ hclosing ih => exact .block hopening ih hclosing

/-- **Recovery is local.** Tokens that are parsed without an error, with scraps put between declarations at the
top and in blocks, however often, are parsed to the same statements with those of the scraps between them, and
the errors are those of the scraps, in order. A scrap is at most one statement. Tokens that are parsed without
an error have no scraps in them at first. -/
theorem recovery_is_local :
    (∀ (ts ts' : List Token) (ss ss' : List Stmt) (errors : List SyntaxError) (mark : Token), mark.kind = .endMark →
      Inserted (.declarations ss) ts (.declarations ss') ts' errors →
      parse (ts ++ [mark]) = ⟨ss, [], none⟩ ∧ parse (ts' ++ [mark]) = ⟨ss', errors, none⟩) ∧
    (∀ (ts : List Token) (ss : List Stmt) (mark : Token), (∀ t ∈ ts, t.kind ≠ .endMark) →
      parse (ts ++ [mark]) = ⟨ss, [], none⟩ → Inserted (.declarations ss) ts (.declarations ss) ts []) ∧
    ∀ (tokens : List Token) (semicolon mark : Token), Scrap tokens semicolon → mark.kind = .endMark →
      (parse (tokens ++ [semicolon, mark])).result.length ≤ 1 ∧ (parse (tokens ++ [semicolon, mark])).fault = none := by
  refine ⟨?_, ?_, ?_⟩
  · intro ts ts' ss ss' errors mark hmark h
    refine ⟨h.derives.parse_eq hmark, ?_⟩
    have hmarked : Marked [mark] := marked_concat [] hmark
    obtain ⟨complaints, rfl, hvalue, -, hcomplaints⟩ := h.recovers (· = .endMark) (ts' ++ [mark]).length
      (ts' ++ [mark]).length (ts' ++ [mark]).length mark [] (by simp) (by simpa using hmark) hmarked (by simp)
      (by simp) (by simp)
    have hne : ts' ++ [mark] ≠ [] := by simp
    simp only [parse, programParser, Parser.run, if_neg hne, hvalue, hcomplaints, Option.getD_some]
  · intro ts ss mark hts hparse
    exact .unchanged (derives_of_parse_eq hts hparse)
  · intro tokens semicolon mark hscrap hmark
    have hmarked : Marked [mark] := marked_concat [] hmark
    obtain ⟨o, complaints, hparse, -⟩ := hscrap.parse_eq hmark hmarked (Nat.le_refl _) (Nat.le_refl _)
    rw [hparse]
    exact ⟨by cases o <;> simp, rfl⟩

/-- In `{ if (a) print a; }` a scrap `=;` behind the dangling `if` costs one error, and a scrap `a;` behind the
block is a statement. -/
theorem recovery_is_local_dangling_if :
    let t (kind : TokenKind) (lexeme : String) : Token := ⟨kind, lexeme, none, 1⟩
    let a := t .identifier "a"
    let inner := [t .kwIf "if", t .leftParen "(", a, t .rightParen ")", t .kwPrint "print", a, t .semicolon ";"]
    let broken := [t .equal "=", t .semicolon ";"]
    let program := block [branch (.reference a) (print (.reference a)) none]
    Scrap [t .equal "="] (t .semicolon ";") ∧ Scrap [a] (t .semicolon ";") ∧
    parse (t .leftBrace "\x7b" :: (inner ++ [t .rightBrace "\x7d"]) ++ [Token.endOn 1]) = ⟨[program], [], none⟩ ∧
    parse (t .leftBrace "\x7b" :: (inner ++ broken ++ [t .rightBrace "\x7d"]) ++ [a, t .semicolon ";"] ++ [Token.endOn 1]) =
      ⟨[program, expression (.reference a)], [⟨1, " at '='", "Expect expression."⟩], none⟩ := by
  intro t a inner broken program
  have hbroken : Scrap [t .equal "="] (t .semicolon ";") := ⟨rfl, by decide, by decide, by decide⟩
  have hname : Scrap [a] (t .semicolon ";") := ⟨rfl, by decide, by decide, by decide⟩
  have hreference : Expr.Derives .assignment [a] (.reference a) := by
    iterate 8 apply Expr.Derives.tighter
    exact .name rfl
  have hprint : Derives (.statement (print (.reference a)) .closed) [t .kwPrint "print", a, t .semicolon ";"] :=
    .print rfl hreference rfl
  have hif : Derives (.statement (branch (.reference a) (print (.reference a)) none) .dangling) inner :=
    .ifThen rfl rfl hreference rfl hprint
  have hmark : (Token.endOn 1).kind = .endMark := rfl
  have hinner := Inserted.cons (.unchanged (.statement hif)) (.scrap hbroken hmark (.unchanged .nil))
  have hopening : (t .leftBrace "\x7b").kind = .leftBrace := rfl
  have hclosing : (t .rightBrace "\x7d").kind = .rightBrace := rfl
  have hblock := Inserted.cons (.statement (.block hopening hinner hclosing)) (.scrap hname hmark (.unchanged .nil))
  obtain ⟨hbefore, hafter⟩ := recovery_is_local.1 _ _ _ _ _ _ hmark hblock
  refine ⟨hbroken, hname, by simpa using hbefore, ?_⟩
  have h₁ : parse ([t .equal "="] ++ [t .semicolon ";", Token.endOn 1]) =
      ⟨[], [⟨1, " at '='", "Expect expression."⟩], none⟩ := by rfl
  have hstatement : Derives (.declarations [expression (.reference a)]) ([a] ++ [t .semicolon ";"] ++ []) :=
    .cons (.statement (.expression hreference rfl)) .nil
  have h₂ : parse ([a] ++ [t .semicolon ";", Token.endOn 1]) = ⟨[expression (.reference a)], [], none⟩ :=
    hstatement.parse_eq hmark
  rw [h₁, h₂] at hafter
  simpa [broken, program] using hafter

end Lox.Stmt
