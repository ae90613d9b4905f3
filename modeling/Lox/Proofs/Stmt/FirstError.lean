import Lox.Proofs.Stmt.FirstMark
import Lox.Proofs.Stmt.Relaxed

/-!
The first error of a program, those about targets of assignments apart: it is about the first token that cannot be
right.

* `Ended w u`: the tokens `w` are a statement, and the token `u` behind it does not belong to it.
* `parser_exact`: on any tokens the statement parser passes over a statement or blames a token behind the beginning of
  one.
-/

namespace Lox

open Lox.Parser

namespace Stmt

/-! ## Statements on trial -/

/-- The tokens are a statement, and the token behind them is no `else` that belongs to it. -/
def Ended (w : List Token) (u : Token) : Prop :=
  ∃ ending, Relaxed (.statement ending) w ∧ (ending = .dangling → u.kind ≠ .kwElse)

theorem Relaxed.ended {w : List Token} (h : Relaxed (.statement .closed) w) (u : Token) : Ended w u :=
  ⟨.closed, h, nofun⟩

/-- What ends a statement with a statement behind it, ends as that. -/
theorem Ended.imp {w w' : List Token} {u : Token} (h : Ended w u)
    (hw : ∀ ending, Relaxed (.statement ending) w → Relaxed (.statement ending) w') : Ended w' u := by
  obtain ⟨ending, hstatement, hadmits⟩ := h
  exact ⟨ending, hw ending hstatement, hadmits⟩

theorem relaxed_filler : Expr.Relaxed .assignment [.filler .identifier] := Expr.relaxed_name rfl .assignment

theorem ended_filler (u : Token) : Ended [.filler .identifier, .filler .semicolon] u :=
  (Relaxed.expression relaxed_filler rfl).ended u

section Constructs

variable {n : Nat} {expr : Parser Expr} {body : Parser Stmt} (hexpr : Expr.ExactAt .assignment n expr)
  (hbody : Exact Ended n body)

include hexpr

theorem initialValue_exact : Exact (fun w _ => w = [] ∨ ∃ sign ts, w = sign :: ts ∧ sign.kind = .equal ∧
    Expr.Relaxed .assignment ts) n (initialValue expr) := by
  intro ts hts hlength
  obtain ⟨t, us, rfl⟩ := hts.exists_cons
  simp only [List.length_cons] at hlength
  refine trial_acceptAny_bind rfl (fun hasked => ?_) fun _ => trial_pure hts (.inl rfl) none
  have hsign : t.kind = .equal := by simpa using hasked
  have hvalue := hexpr.trial (m := n - 1) (hts.tail (by simp [hsign])) (by omega) (by omega)
  exact hvalue.map some fun w _ hw => .inr ⟨t, w, rfl, hsign, hw⟩

theorem declaration_exact {word : Token} (hword : word.kind = .kwVar) :
    Exact (fun w _ => Relaxed .variableDeclaration (word :: w)) n (declaration expr) := by
  intro ts hts hlength
  obtain ⟨name, us, rfl⟩ := hts.exists_cons
  simp only [List.length_cons] at hlength
  have hbare : Relaxed .variableDeclaration [word, .filler .identifier, .filler .semicolon] := .bare hword rfl rfl
  refine trial_expect_bind (by simp) (by simp) (u := name) hbare fun hname => ?_
  have hroom : us.length ≤ n - 1 := by omega
  have hinitial := (initialValue_exact hexpr).trial (hts.tail (by simp [hname])) hroom (by omega)
  refine hinitial.closing hroom (by simp) (by simp) (declare name) ?_
  rintro w u semicolon u' (rfl | ⟨sign, ts, rfl, hsign, hvalue⟩) hsemicolon
  · exact .bare hword hname hsemicolon
  · exact .initialized hword hname hsign hvalue hsemicolon

/-- An expression with a semicolon behind it, made into a statement. -/
theorem beforeSemicolon_exact {L : List Token → Token → Prop} (make : Expr → Stmt) {reason : Reason}
    (hreason : reason ≠ .assignmentTarget)
    (hL : ∀ ts semicolon u, Expr.Relaxed .assignment ts → semicolon.kind = .semicolon → L (ts ++ [semicolon]) u) :
    Exact L n (do let value ← expr; let _ ← expect .semicolon reason; pure (make value)) := by
  intro ts hts hlength
  exact (hexpr ts hts hlength).closing hlength (by simp) hreason make fun w _ semicolon u hw => hL w semicolon u hw

/-- An expression in parentheses, and what comes behind it. -/
theorem inParens_exact {L : List Token → Token → Prop} {f : Expr → Parser Stmt} {before after : Reason}
    (hbefore : before ≠ .assignmentTarget) (hafter : after ≠ .assignmentTarget)
    (hviable : ∀ opening ts closing, opening.kind = .leftParen → Expr.Relaxed .assignment ts →
      closing.kind = .rightParen → ∃ z u, L (opening :: (ts ++ closing :: z)) u)
    (hf : ∀ e opening ts closing, opening.kind = .leftParen → Expr.Relaxed .assignment ts →
      closing.kind = .rightParen → Exact (fun v => L (opening :: (ts ++ closing :: v))) n (f e)) :
    Exact L n (do
      let _ ← expect .leftParen before
      let e ← expr
      let _ ← expect .rightParen after
      f e) := by
  intro ts hts hlength
  obtain ⟨opening, us, rfl⟩ := hts.exists_cons
  simp only [List.length_cons] at hlength
  obtain ⟨z, u, hz⟩ := hviable (.filler .leftParen) _ (.filler .rightParen) rfl relaxed_filler rfl
  refine trial_expect_bind (by simp) hbefore hz fun hopening => ?_
  have hroom : us.length ≤ n - 1 := by omega
  have hinside := hexpr.trial (hts.tail (by simp [hopening])) hroom (by omega)
  refine hinside.thenExpect hroom (by simp) hafter
    (fun w _ closing hw hclosing => hviable opening w closing hopening hw hclosing) ?_
  intro e w closing rest hrest hroom' hw hclosing
  exact (hf e opening w closing hopening hw hclosing).trial hrest hroom' (by omega)

theorem forInitial_exact : Exact (fun w _ => Relaxed .initial w) n (forInitial expr) := by
  intro ts hts hlength
  obtain ⟨t, us, rfl⟩ := hts.exists_cons
  simp only [List.length_cons] at hlength
  refine trial_peek_bind ?_
  split
  · rename_i hsemicolon
    have hus := hts.tail (by simp [hsemicolon])
    obtain ⟨u, vs, rfl⟩ := hus.exists_cons
    exact trial_skip_bind (by simp [hsemicolon]) (trial_pure hus (.noInitial hsemicolon) none)
  · rename_i hvar
    have hmark : t.kind ≠ .endMark := by simp [hvar]
    have hdeclaration := (declaration_exact hexpr hvar).trial (m := n - 1) (hts.tail hmark) (by omega) (by omega)
    exact trial_skip_bind hmark (hdeclaration.map some fun w _ hw => .declaredInitial hw)
  · have hexpression : Exact (fun w _ => Relaxed .initial w) n (expressionStatement expr) :=
      beforeSemicolon_exact hexpr expression (by simp) fun ts semicolon _ hvalue hsemicolon =>
        .expressionInitial hvalue hsemicolon
    exact (hexpression _ hts hlength).map some fun _ _ hw => hw

/-- A clause, with the token that stops it. -/
theorem forClause_exact {stop : TokenKind} (hstop : stop ≠ .endMark) {reason : Reason}
    (hreason : reason ≠ .assignmentTarget) :
    Exact (fun w _ => ∃ ts closing, w = ts ++ [closing] ∧ Relaxed .clause ts ∧ closing.kind = stop) n
      (forClause expr stop reason) := by
  intro ts hts hlength
  have hoptional : Trial (fun w _ => Relaxed .clause w) n (optionalExpr expr stop) ts := by
    obtain ⟨t, us, rfl⟩ := hts.exists_cons
    refine trial_peek_bind ?_
    split
    · exact trial_pure hts .noClause none
    · exact (hexpr _ hts hlength).map some fun w _ hw => .clause hw
  exact hoptional.closing hlength hstop hreason id fun w _ closing _ hw hclosing => ⟨w, closing, rfl, hw, hclosing⟩

include hbody

theorem conditional_exact {word : Token} (hword : word.kind = .kwIf) :
    Exact (fun w => Ended (word :: w)) n (conditional expr body) := by
  refine inParens_exact hexpr (by simp) (by simp) ?_ ?_
  · intro opening ts closing hopening hts hclosing
    have hyes : Relaxed (.statement .closed) _ := .expression relaxed_filler (rfl : (Token.filler .semicolon).kind = _)
    exact ⟨_, .filler .endMark, .dangling, .ifThen hword hopening hts hclosing hyes, fun _ => by simp [Token.filler]⟩
  · intro condition opening ts closing hopening hts hclosing us hus hlength
    refine (hbody us hus hlength).bind hlength ?_ ?_
    · rintro w u ⟨ending, hw, -⟩
      refine ⟨[], .filler .endMark, .dangling, ?_, fun _ => by simp [Token.filler]⟩
      rw [List.append_nil]
      exact .ifThen hword hopening hts hclosing hw
    · rintro yes w t vs hmarked hroom ⟨ending, hw, hadmits⟩
      simp only [List.length_cons] at hroom
      refine trial_acceptAny_bind rfl (fun hasked => ?_) fun hasked => ?_
      · have helse : t.kind = .kwElse := by simpa using hasked
        -- behind a dangling first branch there would be no `else`
        obtain rfl : ending = .closed := by
          cases ending with
          | closed => rfl
          | dangling => exact absurd helse (hadmits rfl)
        have hno := hbody.trial (m := n - w.length - 1) (hmarked.tail (by simp [helse])) (by omega) (by omega)
        refine hno.map _ fun v u hv => hv.imp fun ending hv => ?_
        exact .ifThenElse hword hopening hts hclosing hw helse hv
      · refine trial_pure hmarked ⟨.dangling, ?_, fun _ => by simpa using hasked⟩ _
        rw [List.append_nil]
        exact .ifThen hword hopening hts hclosing hw

theorem whileLoop_exact {word : Token} (hword : word.kind = .kwWhile) :
    Exact (fun w => Ended (word :: w)) n (whileLoop expr body) := by
  refine inParens_exact hexpr (by simp) (by simp) ?_ ?_
  · intro opening ts closing hopening hts hclosing
    have hinner := ended_filler (.filler .endMark)
    exact ⟨_, _, hinner.imp fun ending hw => .whileLoop hword hopening hts hclosing hw⟩
  · intro condition opening ts closing hopening hts hclosing us hus hlength
    exact (hbody us hus hlength).map _ fun w u hw => hw.imp fun ending hw => .whileLoop hword hopening hts hclosing hw

theorem forStatement_exact {word : Token} (hword : word.kind = .kwFor) :
    Exact (fun w => Ended (word :: w)) n (forStatement expr body) := by
  have hwhole : ∀ {opening semicolon closing u : Token} {ts us vs ws : List Token}, opening.kind = .leftParen →
      Relaxed .initial ts → Relaxed .clause us → semicolon.kind = .semicolon → Relaxed .clause vs →
      closing.kind = .rightParen → Ended ws u →
      Ended (word :: opening :: (ts ++ ((us ++ [semicolon]) ++ ((vs ++ [closing]) ++ ws)))) u := by
    intro opening semicolon closing u ts us vs ws hopening hts hus hsemicolon hvs hclosing hws
    refine hws.imp fun ending hws => ?_
    simpa using Relaxed.forLoop hword hopening hts hus hsemicolon hvs hclosing hws
  -- what completes a loop from any point on
  have hparen : (Token.filler .leftParen).kind = .leftParen := rfl
  have hsemi : (Token.filler .semicolon).kind = .semicolon := rfl
  have hclose : (Token.filler .rightParen).kind = .rightParen := rfl
  have hend := ended_filler (.filler .endMark)
  intro ts hts hlength
  obtain ⟨opening, us, rfl⟩ := hts.exists_cons
  simp only [List.length_cons] at hlength
  refine trial_expect_bind (by simp) (by simp)
    (hwhole hparen (.noInitial hsemi) .noClause hsemi .noClause hclose hend) fun hopening => ?_
  have hroom : us.length ≤ n - 1 := by omega
  have hfirst := (forInitial_exact hexpr).trial (hts.tail (by simp [hopening])) hroom (by omega)
  refine hfirst.bind hroom (fun w _ hw => ⟨_, _, hwhole hopening hw .noClause hsemi .noClause hclose hend⟩) ?_
  intro initial ts u₁ rest₁ hmarked₁ hroom₁ hinitial
  have hsecond := (forClause_exact hexpr (by simp : TokenKind.semicolon ≠ .endMark)
    (by simp : Reason.semicolonAfterLoopCondition ≠ .assignmentTarget)).trial hmarked₁ hroom₁ (by omega)
  refine hsecond.bind hroom₁ ?_ ?_
  · rintro _ _ ⟨us, semicolon, rfl, hus, hsemicolon⟩
    exact ⟨_, _, hwhole hopening hinitial hus hsemicolon .noClause hclose hend⟩
  rintro condition _ u₂ rest₂ hmarked₂ hroom₂ ⟨us, semicolon, rfl, hus, hsemicolon⟩
  have hthird := (forClause_exact hexpr (by simp : TokenKind.rightParen ≠ .endMark)
    (by simp : Reason.parenAfterForClauses ≠ .assignmentTarget)).trial hmarked₂ hroom₂ (by omega)
  refine hthird.bind hroom₂ ?_ ?_
  · rintro _ _ ⟨vs, closing, rfl, hvs, hclosing⟩
    exact ⟨_, _, hwhole hopening hinitial hus hsemicolon hvs hclosing hend⟩
  rintro step _ u₃ rest₃ hmarked₃ hroom₃ ⟨vs, closing, rfl, hvs, hclosing⟩
  have hlast := hbody.trial hmarked₃ hroom₃ (by omega)
  exact hlast.map _ fun ws u hws => hwhole hopening hinitial hus hsemicolon hvs hclosing hws

theorem declarationOr_exact : Exact (fun w _ => Relaxed .declaration w) n (declarationOr expr body) := by
  intro ts hts hlength
  obtain ⟨t, us, rfl⟩ := hts.exists_cons
  simp only [List.length_cons] at hlength
  refine trial_acceptAny_bind rfl (fun hasked => ?_) fun _ => ?_
  · have hvar : t.kind = .kwVar := by simpa using hasked
    have htail : Marked us := hts.tail (by simp [hvar])
    have hdeclaration := (declaration_exact hexpr hvar).trial (m := n - 1) htail (by omega) (by omega)
    exact hdeclaration.mono (fun w _ hw => .declares hw) (Nat.le_refl _)
  · refine (hbody _ hts hlength).mono ?_ (Nat.le_refl n)
    rintro w _ ⟨ending, hw, -⟩
    exact .statement hw

end Constructs

/-! ## Declarations on trial -/

/-- The loop passes over declarations up to a token that closes them, or blames the first token that is wrong. -/
theorem declarations_exact {n : Nat} {one : Parser Stmt} (hone : Exact (fun w _ => Relaxed .declaration w) n one)
    (closes : TokenKind → Bool) (hcloses : closes .endMark = true) {k : Nat} (hk : k ≤ n) :
    Exact (fun w u => Relaxed .declarations w ∧ closes u.kind = true) k (declarations closes one k) := by
  induction k with
  | zero => exact exact_zero
  | succ k ih =>
    intro ts hts hlength
    obtain ⟨t, us, rfl⟩ := hts.exists_cons
    refine trial_peek_bind ?_
    split
    · rename_i hclose
      exact trial_pure hts ⟨.nil, hclose⟩ []
    · have hhead := (hone.trial hts hlength hk).recover
      refine hhead.bind hlength (fun w _ hw => ⟨[], .filler .endMark, .cons hw .nil, hcloses⟩) ?_
      intro head w u rest hmarked hroom hw
      -- a declaration has a token, so that the bound of the loop suffices for the others
      obtain ⟨v, vs, rfl, -⟩ := hw.first_of_declaration
      have htail := (ih (by omega)).trial hmarked hroom (by simp)
      exact htail.map _ fun w' u' hw' => ⟨.cons hw hw'.1, hw'.2⟩

section Statements

variable {n : Nat} {expr : Parser Expr} {body : Parser Stmt}

theorem blockStatement_exact (hexpr : Expr.ExactAt .assignment n expr) (hbody : Exact Ended n body) {word : Token}
    (hword : word.kind = .leftBrace) : Exact (fun w => Ended (word :: w)) n (blockStatement n expr body) := by
  intro ts hts hlength
  have hinner := declarations_exact (declarationOr_exact hexpr hbody) closesBlock rfl (Nat.le_refl n) ts hts hlength
  refine hinner.closing hlength (by simp) (by simp) block fun w _ closing u' hw hclosing => ?_
  exact (Relaxed.block hword hw.1 hclosing).ended u'

theorem statement_exact (hexpr : Expr.ExactAt .assignment (n + 1) expr) (hbody : Exact Ended n body) :
    Exact Ended (n + 1) (statement n expr body) := by
  intro ts hts hlength
  obtain ⟨t, us, rfl⟩ := hts.exists_cons
  have hinside : Expr.ExactAt .assignment n expr := fun ts hts hlength => hexpr.trial hts hlength (Nat.le_succ n)
  -- every construct that starts with a word comes behind that word
  have hword : ∀ {p : Parser Stmt}, t.kind ≠ .endMark → Exact (fun w => Ended (t :: w)) n p →
      Trial Ended (n + 1) (do skip; p) (t :: us) := fun hkind hp =>
    trial_skip_bind hkind (hp us (hts.tail hkind) (by simpa using hlength))
  refine trial_peek_bind ?_
  split
  · rename_i hkind
    exact hword (by simp [hkind]) (forStatement_exact hinside hbody hkind)
  · rename_i hkind
    exact hword (by simp [hkind]) (conditional_exact hinside hbody hkind)
  · rename_i hkind
    refine hword (by simp [hkind]) (beforeSemicolon_exact hinside print (by simp) ?_)
    exact fun ts semicolon u hvalue hsemicolon => (Relaxed.print hkind hvalue hsemicolon).ended u
  · rename_i hkind
    exact hword (by simp [hkind]) (whileLoop_exact hinside hbody hkind)
  · rename_i hkind
    exact hword (by simp [hkind]) (blockStatement_exact hinside hbody hkind)
  · refine beforeSemicolon_exact hexpr expression (by simp) ?_ _ hts hlength
    exact fun ts semicolon u hvalue hsemicolon => (Relaxed.expression hvalue hsemicolon).ended u

end Statements

/-- The statement parser is exact. -/
theorem parser_exact (n : Nat) : Exact Ended n (parser n) := by
  induction n with
  | zero => exact exact_zero
  | succ n ih => exact statement_exact (Expr.parser_exact (n + 1)) ih

/-- The program parser is exact. -/
theorem programParser_exact (n : Nat) :
    Exact (fun w u => Relaxed .declarations w ∧ u.kind = .endMark) n (programParser n) := by
  have hone := declarationOr_exact (Expr.parser_exact n) (parser_exact n)
  have hprogram := declarations_exact hone (· = .endMark) rfl (Nat.le_refl n)
  intro ts hts hlength
  exact (hprogram ts hts hlength).mono (fun w u hw => ⟨hw.1, by simpa using hw.2⟩) (Nat.le_refl n)

/-! ## The first error -/

end Stmt

/-- The error is not about the target of an assignment. -/
def SyntaxError.isHard (e : SyntaxError) : Bool := e.message ≠ "Invalid assignment target."

/-- the errors that are not about targets of assignments -/
def Parse.hardErrors {α : Type} (p : Parse α) : List SyntaxError := p.errors.filter SyntaxError.isHard

section HardErrors

variable {complaints made : List Complaint} {c : Complaint}

theorem isHard_toError_iff : c.toError.isHard = true ↔ c.reason ≠ .assignmentTarget := by
  have hmessage : c.toError.message = c.reason.message := by
    unfold Complaint.toError SyntaxError.atToken
    split <;> rfl
  unfold SyntaxError.isHard
  rw [hmessage, decide_eq_true_iff]
  cases c.reason <;> decide

theorem filter_of_mild (h : Mild complaints) : (complaints.map Complaint.toError).filter SyntaxError.isHard = [] := by
  rw [List.filter_eq_nil_iff]
  intro e he hhard
  obtain ⟨c, hc, rfl⟩ := List.mem_map.1 he
  exact isHard_toError_iff.1 hhard (h c hc)

/-- Behind mild complaints the first that is not mild is the first hard error. -/
theorem head?_filter_of_isPrefix (hmade : Mild made) (hc : c.reason ≠ .assignmentTarget)
    (h : made ++ [c] <+: complaints) :
    ((complaints.map Complaint.toError).filter SyntaxError.isHard).head? = some c.toError := by
  obtain ⟨more, rfl⟩ := h
  simp only [List.map_append, List.filter_append, filter_of_mild hmade, List.nil_append, List.map_cons, List.map_nil]
  rw [List.filter_cons_of_pos (isHard_toError_iff.2 hc)]
  rfl

end HardErrors

namespace Stmt

section FirstError

variable {ts : List Token} {mark : Token}

/-- Parsing makes the complaints of the program parser, with any bound that is large enough. -/
theorem errors_parse (hts : ∀ t ∈ ts, t.kind ≠ .endMark) (hmark : mark.kind = .endMark) {n : Nat}
    (hn : (ts ++ [mark]).length ≤ n) :
    (parse (ts ++ [mark])).errors = (programParser n (ts ++ [mark])).complaints.map Complaint.toError := by
  have hrel : Cut.pairing.Rel (ts ++ [mark]) (ts ++ [mark]) := ⟨ts, mark, [], hts, hmark, rfl, rfl⟩
  have hrun := (programParser_paired (P := Cut.pairing) (fun _ hkind => hkind) _ n).run_eq (fun _ _ => AllAlike.eq) hrel
    (Nat.le_refl _) hn
  have herrors : (run (programParser n) (ts ++ [mark])).errors =
      (programParser n (ts ++ [mark])).complaints.map Complaint.toError := by
    unfold run
    rw [if_neg (by simp)]
    rcases programParser n (ts ++ [mark]) with ⟨(_ | fault) | a, rest, complaints, complained⟩ <;> rfl
  rw [← herrors, ← hrun]
  rfl

/-- On a program of the relaxed grammar all complaints are mild. -/
theorem Relaxed.mild (h : Relaxed .declarations ts) (hmark : mark.kind = .endMark) {n : Nat} (hn : ts.length < n) :
    Mild (programParser n (ts ++ [mark])).complaints := by
  obtain ⟨ss, complaints, hyields, hmild⟩ :=
    h.passed (· = .endMark) n n n mark [] (by simp) (by simpa using hmark) hn hn hn
  rw [programParser, hyields.complaints]
  exact hmild

/-- The first hard error is about the token `t` behind the tokens `w`, which begin a program, and is made whatever comes
behind it, as long as there are at most `n` tokens. -/
structure Blames (ts : List Token) (mark : Token) (n : Nat) (w : List Token) (t : Token) (c : Complaint) : Prop where
  split : ∃ rest, ts ++ [mark] = w ++ t :: rest
  viable : ∃ z, Relaxed .declarations (w ++ z)
  token_eq : c.token = t
  hard : c.reason ≠ .assignmentTarget
  head? : (parse (ts ++ [mark])).hardErrors.head? = some c.toError
  complains : ∀ us, (w ++ t :: us).length ≤ n → c ∈ (programParser n (w ++ t :: us)).complaints

/-- Either the tokens are a program, or a token among them is blamed. -/
theorem relaxed_or_blames (hts : ∀ t ∈ ts, t.kind ≠ .endMark) (hmark : mark.kind = .endMark) {n : Nat}
    (hn : (ts ++ [mark]).length ≤ n) :
    Relaxed .declarations ts ∧ (parse (ts ++ [mark])).hardErrors = [] ∨ ∃ w t c, Blames ts mark n w t c := by
  have herrors := errors_parse hts hmark hn
  cases programParser_exact n (ts ++ [mark]) (marked_concat ts hmark) hn with
  | @passed ss w rest u made hsplit hmarked hword hmild hyields =>
    obtain ⟨hprogram, hu⟩ := hword
    obtain ⟨rfl, rfl, rfl⟩ := eq_of_append_endMark hts hu hsplit
    refine .inl ⟨hprogram, ?_⟩
    rw [Parse.hardErrors, herrors, (hyields [] hn).complaints]
    exact filter_of_mild hmild
  | @blamed w z rest t u made c hsplit hviable hmild hhard htoken hcomplains =>
    refine .inr ⟨w, t, c, ⟨rest, hsplit⟩, ⟨z, hviable.1⟩, htoken, hhard, ?_, fun us hus => ?_⟩
    · have hprefix := hcomplains rest (by rw [← hsplit]; exact hn)
      rw [Parse.hardErrors, herrors]
      rw [← hsplit] at hprefix
      exact head?_filter_of_isPrefix hmild hhard hprefix
    · exact (hcomplains us hus).subset (by simp)

/-- A token that is blamed whatever comes behind it, continues no program. -/
theorem Blames.not_relaxed {n : Nat} {w : List Token} {t : Token} {c : Complaint} (h : Blames ts mark n w t c)
    {z : List Token} (hz : (w ++ t :: (z ++ [mark])).length ≤ n) (hmark : mark.kind = .endMark) :
    ¬ Relaxed .declarations (w ++ t :: z) := by
  intro hprogram
  have hlength : (w ++ t :: z).length < n := by
    simp only [List.length_append, List.length_cons, List.length_nil] at hz ⊢
    omega
  have hmild := hprogram.mild hmark hlength
  have hmem := h.complains (z ++ [mark]) hz
  rw [List.append_assoc, List.cons_append] at hmild
  exact h.hard (hmild c hmem)

/-- A program of the relaxed grammar has no hard errors. -/
theorem Relaxed.hardErrors_eq (h : Relaxed .declarations ts) (hts : ∀ t ∈ ts, t.kind ≠ .endMark)
    (hmark : mark.kind = .endMark) : (parse (ts ++ [mark])).hardErrors = [] := by
  rw [Parse.hardErrors, errors_parse hts hmark (Nat.le_refl _)]
  exact filter_of_mild (h.mild hmark (by simp))

/-- Tokens on different lines are told apart by their lines. -/
theorem index_eq_of_line_eq {tokens : List Token} (hlines : (tokens.map Token.line).Nodup) {i j : Nat} {t u : Token}
    (hi : tokens[i]? = some t) (hj : tokens[j]? = some u) (h : u.line = t.line) : j = i := by
  obtain ⟨hjlength, -⟩ := List.getElem?_eq_some_iff.1 hj
  refine (List.getElem?_inj (by simpa using hjlength) hlines).1 ?_
  rw [List.getElem?_map, List.getElem?_map, hi, hj, Option.map_some, Option.map_some, h]

theorem line_toError (c : Complaint) : c.toError.line = c.token.line := by
  unfold Complaint.toError SyntaxError.atToken
  split <;> rfl

theorem Blames.getElem? {n : Nat} {w : List Token} {t : Token} {c : Complaint} (h : Blames ts mark n w t c) :
    (ts ++ [mark])[w.length]? = some t := by
  obtain ⟨rest, hsplit⟩ := h.split
  rw [hsplit, List.getElem?_append_right (Nat.le_refl _), Nat.sub_self]
  rfl

theorem Blames.take_eq {n : Nat} {w : List Token} {t : Token} {c : Complaint} (h : Blames ts mark n w t c) :
    (ts ++ [mark]).take w.length = w := by
  obtain ⟨rest, hsplit⟩ := h.split
  rw [hsplit, List.take_left]

/-- With tokens on different lines, one token is blamed whatever the bound. -/
theorem Blames.unique {n n' : Nat} {w w' : List Token} {t t' : Token} {c c' : Complaint} (h : Blames ts mark n w t c)
    (h' : Blames ts mark n' w' t' c') (hlines : ((ts ++ [mark]).map Token.line).Nodup) : w' = w ∧ t' = t := by
  have herror : c'.toError = c.toError := Option.some.inj (h'.head?.symm.trans h.head?)
  have hline : t'.line = t.line := by rw [← h'.token_eq, ← h.token_eq, ← line_toError, ← line_toError, herror]
  have hlength := index_eq_of_line_eq hlines h.getElem? h'.getElem? hline
  refine ⟨by rw [← h'.take_eq, hlength, h.take_eq], ?_⟩
  exact Option.some.inj (h'.getElem?.symm.trans (hlength ▸ h.getElem?))

/-- Where there is a hard error, a token is blamed for it. -/
theorem exists_blames (hts : ∀ t ∈ ts, t.kind ≠ .endMark) (hmark : mark.kind = .endMark) {e : SyntaxError}
    (he : (parse (ts ++ [mark])).hardErrors.head? = some e) {n : Nat} (hn : (ts ++ [mark]).length ≤ n) :
    ∃ w t c, Blames ts mark n w t c ∧ c.toError = e := by
  rcases relaxed_or_blames hts hmark hn with ⟨-, hnil⟩ | ⟨w, t, c, h⟩
  · rw [hnil] at he
    cases he
  · exact ⟨w, t, c, h, Option.some.inj (h.head?.symm.trans he)⟩

/-- A token that is blamed continues no program. -/
theorem Blames.continues_none {n : Nat} {w : List Token} {t : Token} {c : Complaint} (h : Blames ts mark n w t c)
    (hts : ∀ t ∈ ts, t.kind ≠ .endMark) (hmark : mark.kind = .endMark)
    (hlines : ((ts ++ [mark]).map Token.line).Nodup) (z : List Token) : ¬ Relaxed .declarations (w ++ t :: z) := by
  -- with a bound for the longer list the same token is blamed
  let m := max (ts ++ [mark]).length (w ++ t :: (z ++ [mark])).length
  obtain ⟨w', t', c', h', -⟩ := exists_blames hts hmark h.head? (Nat.le_max_left _ _ : _ ≤ m)
  obtain ⟨rfl, rfl⟩ := h.unique h' hlines
  exact h'.not_relaxed (Nat.le_max_right _ _) hmark

/-- **The first error blames the first token that cannot be right.** Every program is one of the relaxed grammar. Of
tokens with one end mark, in last position, on different lines, parsing reports an error other than that of an
assignment's target exactly if they are no program of the relaxed grammar. The tokens in front of the one that the first
such error is about begin a program. If that one is no end mark, no program begins with it behind them; if it is, they
are no program themselves, only the beginning of a longer one. -/
theorem first_error_at_first_wrong_token (hts : ∀ t ∈ ts, t.kind ≠ .endMark) (hmark : mark.kind = .endMark)
    (hlines : ((ts ++ [mark]).map Token.line).Nodup) :
    let tokens := ts ++ [mark]
    (∀ ss, Derives (.declarations ss) ts → Relaxed .declarations ts) ∧
      ((parse tokens).hardErrors ≠ [] ↔ ¬ Relaxed .declarations ts) ∧
      ∀ e, (parse tokens).hardErrors.head? = some e → ∃ i t, tokens[i]? = some t ∧
        (∃ reason : Reason, e = SyntaxError.atToken t reason.message) ∧
        (∀ j u, tokens[j]? = some u → u.line = e.line → j = i) ∧
        (∃ z, Relaxed .declarations (tokens.take i ++ z)) ∧
        (t.kind ≠ .endMark → ∀ z, ¬ Relaxed .declarations (tokens.take (i + 1) ++ z)) ∧
        (t.kind = .endMark → (∃ z, z ≠ [] ∧ Relaxed .declarations (ts ++ z)) ∧ ¬ Relaxed .declarations ts) := by
  intro tokens
  have hnot : (parse tokens).hardErrors ≠ [] → ¬ Relaxed .declarations ts := fun herrors hprogram =>
    herrors (hprogram.hardErrors_eq hts hmark)
  refine ⟨fun ss h => h.relaxed, ⟨hnot, fun hprogram => ?_⟩, fun e he => ?_⟩
  · rcases relaxed_or_blames hts hmark (Nat.le_refl tokens.length) with ⟨h, -⟩ | ⟨w, t, c, h⟩
    · exact absurd h hprogram
    · exact List.ne_nil_of_mem (List.mem_of_head? h.head?)
  · obtain ⟨w, t, c, h, rfl⟩ := exists_blames hts hmark he (Nat.le_refl tokens.length)
    have hprogram : ¬ Relaxed .declarations ts := hnot (List.ne_nil_of_mem (List.mem_of_head? he))
    have htake : tokens.take w.length = w := h.take_eq
    refine ⟨w.length, t, h.getElem?, ⟨c.reason, ?_⟩, fun j u hj hline => ?_, ?_, fun _ z => ?_, fun ht => ?_⟩
    · rw [← h.token_eq]
      rfl
    · exact index_eq_of_line_eq hlines h.getElem? hj (by rw [hline, line_toError, h.token_eq])
    · rw [htake]
      exact h.viable
    · have hnext : tokens[w.length]? = some t := h.getElem?
      rw [List.take_add_one, htake, hnext, List.append_assoc]
      exact h.continues_none hts hmark hlines z
    · obtain ⟨rest, hsplit⟩ := h.split
      obtain ⟨rfl, -, -⟩ := eq_of_append_endMark hts ht hsplit
      obtain ⟨z, hz⟩ := h.viable
      refine ⟨⟨z, fun hnil => ?_, hz⟩, hprogram⟩
      rw [hnil, List.append_nil] at hz
      exact hprogram hz

/-- In `{ a + b = c; else`, with each token on a line of its own, the first error about more than a target is about the
`else`: what comes before can be completed, but not with an `else`. -/
theorem first_error_at_first_wrong_token_else :
    let t (kind : TokenKind) (lexeme : String) (line : Nat) : Token := ⟨kind, lexeme, none, line⟩
    let ts := [t .leftBrace "\x7b" 1, t .identifier "a" 2, t .plus "+" 3, t .identifier "b" 4, t .equal "=" 5,
      t .identifier "c" 6, t .semicolon ";" 7, t .kwElse "else" 8]
    (parse (ts ++ [.endOn 9])).hardErrors.head? = some ⟨8, " at 'else'", "Expect expression."⟩ ∧
      (∃ z, Relaxed .declarations (ts.take 7 ++ z)) ∧ ∀ z, ¬ Relaxed .declarations (ts ++ z) := by
  intro t ts
  have hts : ∀ t ∈ ts, t.kind ≠ .endMark := by decide
  have hlines : ((ts ++ [Token.endOn 9]).map Token.line).Nodup := by decide
  have herror : (parse (ts ++ [.endOn 9])).hardErrors.head? = some ⟨8, " at 'else'", "Expect expression."⟩ := by
    decide +kernel
  obtain ⟨-, -, hfirst⟩ := first_error_at_first_wrong_token hts rfl hlines
  obtain ⟨i, u, hi, -, hline, hviable, hwrong, -⟩ := hfirst _ herror
  obtain rfl : 7 = i := hline 7 _ rfl rfl
  obtain rfl : t .kwElse "else" 8 = u := Option.some.inj hi
  exact ⟨herror, hviable, hwrong (by decide)⟩

end FirstError

end Stmt

end Lox
