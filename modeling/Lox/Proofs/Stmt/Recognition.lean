import Lox.Stmt.Parse
import Lox.Proofs.Expr.Recognition
import Lox.Proofs.Stmt.Grammar

/-!
The statement parser accepts what the grammar of statements derives, and builds the tree of the
derivation.

* `parser_sound`: what the parser accepts is derived, and if it dangles then no `else` comes behind
  it.
* `Derives.accepted`: what is derived is accepted, if no `else` comes behind it or it does not
  dangle.
* `parse_iff_derives`: a program is parsed without an error exactly to the trees that the grammar
  derives.

A declaration that is dropped leaves a complaint, so that under recovery nothing else is accepted
than without it.
-/

namespace Lox.Stmt

open Lox.Parser

/-! ## What is accepted is derived -/

section Sound

variable {expr : Parser Expr} {body : Parser Stmt} {ts rest : List Token} {s : Stmt}

/-- No `else` comes next that would belong to a statement with the ending. -/
def Ending.Admits (ending : Ending) (rest : List Token) : Prop :=
  ending = .dangling → rest.head?.map Token.kind ≠ some .kwElse

/-- What the parser accepts is a statement, which takes every `else` behind it. -/
def Sound (p : Parser Stmt) : Prop :=
  ∀ (ts rest : List Token) (s : Stmt), Accepts p ts s rest →
    ∃ us ending, ts = us ++ rest ∧ Derives (.statement s ending) us ∧ ending.Admits rest

/-- What the parser accepts behind a token of a kind is a statement together with that token. -/
def SoundAfter (kind : TokenKind) (p : Parser Stmt) : Prop :=
  ∀ (word : Token) (ts rest : List Token) (s : Stmt), word.kind = kind → Accepts p ts s rest →
    ∃ us ending, ts = us ++ rest ∧ Derives (.statement s ending) (word :: us) ∧ ending.Admits rest

theorem SoundAfter.skip {kind : TokenKind} {p : Parser Stmt} (h : SoundAfter kind p)
    (hkind : kind ≠ .endMark) {word : Token} (hword : word.kind = kind)
    (hp : Accepts (do skip; p) (word :: ts) s rest) :
    ∃ us ending, word :: ts = us ++ rest ∧ Derives (.statement s ending) us ∧ ending.Admits rest := by
  have hmore := (accepts_skip_bind_iff (hword ▸ hkind)).1 hp
  obtain ⟨us, ending, rfl, hderives, hadmits⟩ := h word ts rest s hword hmore
  exact ⟨word :: us, ending, rfl, hderives, hadmits⟩

theorem declaration_sound (hexpr : Expr.Sound expr .assignment) {word : Token}
    (hword : word.kind = .kwVar) (hp : Accepts (declaration expr) ts s rest) :
    ∃ us, ts = us ++ rest ∧ Declares (word :: us) s := by
  obtain ⟨name, us, rfl, hname, hmore⟩ := (accepts_expect_bind_iff (by simp)).1 hp
  obtain ⟨initial, mid, hinitial, hend⟩ := accepts_bind_iff.1 hmore
  obtain ⟨semicolon, vs, rfl, hsemicolon, hpure⟩ := (accepts_expect_bind_iff (by simp)).1 hend
  obtain ⟨rfl, rfl⟩ := accepts_pure_iff.1 hpure
  obtain ⟨sign, ws, rfl, ⟨hsign, hvalue⟩ | ⟨-, hnone⟩⟩ := (accepts_acceptAny_bind_iff rfl).1 hinitial
  · obtain ⟨value, haccepts, rfl⟩ := accepts_map_iff.1 hvalue
    obtain ⟨xs, rfl, hderives⟩ := hexpr _ _ _ haccepts
    exact ⟨name :: sign :: (xs ++ [semicolon]), by simp,
      .initialized hword hname (by simpa using hsign) hderives hsemicolon⟩
  · obtain ⟨rfl, heq⟩ := accepts_pure_iff.1 hnone
    obtain ⟨rfl, rfl⟩ := List.cons.inj heq
    exact ⟨[name, semicolon], rfl, .bare hword hname hsemicolon⟩

/-- An expression with a semicolon behind it, made into a statement. -/
theorem beforeSemicolon_sound (hexpr : Expr.Sound expr .assignment) {make : Expr → Stmt}
    {reason : Reason}
    (hp : Accepts (do let value ← expr; let _ ← expect .semicolon reason; pure (make value)) ts s rest) :
    ∃ us value semicolon, ts = us ++ semicolon :: rest ∧ Expr.Derives .assignment us value ∧
      semicolon.kind = .semicolon ∧ s = make value := by
  obtain ⟨value, mid, hvalue, hend⟩ := accepts_bind_iff.1 hp
  obtain ⟨us, rfl, hderives⟩ := hexpr _ _ _ hvalue
  obtain ⟨semicolon, vs, rfl, hsemicolon, hpure⟩ := (accepts_expect_bind_iff (by simp)).1 hend
  obtain ⟨rfl, rfl⟩ := accepts_pure_iff.1 hpure
  exact ⟨us, value, semicolon, rfl, hderives, hsemicolon, rfl⟩

theorem printStatement_sound (hexpr : Expr.Sound expr .assignment) :
    SoundAfter .kwPrint (printStatement expr) := by
  intro word ts rest s hword hp
  obtain ⟨us, value, semicolon, rfl, hderives, hsemicolon, rfl⟩ := beforeSemicolon_sound hexpr hp
  exact ⟨us ++ [semicolon], .closed, by simp, .print hword hderives hsemicolon, nofun⟩

/-- An expression in parentheses, and what comes behind it. -/
theorem inParens_sound (hexpr : Expr.Sound expr .assignment) {f : Expr → Parser Stmt}
    {before after : Reason}
    (hp : Accepts (do
        let _ ← expect .leftParen before
        let e ← expr
        let _ ← expect .rightParen after
        f e) ts s rest) :
    ∃ opening us closing vs e, ts = opening :: (us ++ closing :: vs) ∧ opening.kind = .leftParen ∧
      Expr.Derives .assignment us e ∧ closing.kind = .rightParen ∧ Accepts (f e) vs s rest := by
  obtain ⟨opening, us, rfl, hopening, hp₁⟩ := (accepts_expect_bind_iff (by simp)).1 hp
  obtain ⟨e, mid, he, hp₂⟩ := accepts_bind_iff.1 hp₁
  obtain ⟨us, rfl, hderives⟩ := hexpr _ _ _ he
  obtain ⟨closing, vs, rfl, hclosing, hp₃⟩ := (accepts_expect_bind_iff (by simp)).1 hp₂
  exact ⟨opening, us, closing, vs, e, rfl, hopening, hderives, hclosing, hp₃⟩

theorem conditional_sound (hexpr : Expr.Sound expr .assignment) (hbody : Sound body) :
    SoundAfter .kwIf (conditional expr body) := by
  intro word ts rest s hword hp
  obtain ⟨opening, us, closing, vs, condition, rfl, hopening, hderives, hclosing, hp₁⟩ :=
    inParens_sound hexpr hp
  obtain ⟨yes, mid, hyes, hp₂⟩ := accepts_bind_iff.1 hp₁
  obtain ⟨vs, yesEnding, rfl, hyesDerives, hadmits⟩ := hbody _ _ _ hyes
  obtain ⟨t, ws, rfl, ⟨helse, hp₃⟩ | ⟨hno, hpure⟩⟩ := (accepts_acceptAny_bind_iff rfl).1 hp₂
  · have helse' : t.kind = .kwElse := by simpa using helse
    -- behind a dangling first branch there would be no `else`
    have hclosed : yesEnding = .closed := by
      cases yesEnding with
      | closed => rfl
      | dangling => exact absurd (congrArg some helse') (hadmits rfl)
    subst hclosed
    obtain ⟨no, mid, hno, hpure⟩ := accepts_bind_iff.1 hp₃
    obtain ⟨ws, ending, rfl, hnoDerives, hadmits'⟩ := hbody _ _ _ hno
    obtain ⟨rfl, rfl⟩ := accepts_pure_iff.1 hpure
    exact ⟨opening :: (us ++ closing :: (vs ++ t :: ws)), ending, by simp,
      .ifThenElse hword hopening hderives hclosing hyesDerives helse' hnoDerives, hadmits'⟩
  · obtain ⟨rfl, rfl⟩ := accepts_pure_iff.1 hpure
    exact ⟨opening :: (us ++ closing :: vs), .dangling, by simp,
      .ifThen hword hopening hderives hclosing hyesDerives, fun _ => by simpa using hno⟩

theorem whileLoop_sound (hexpr : Expr.Sound expr .assignment) (hbody : Sound body) :
    SoundAfter .kwWhile (whileLoop expr body) := by
  intro word ts rest s hword hp
  obtain ⟨opening, us, closing, vs, condition, rfl, hopening, hderives, hclosing, hp₁⟩ :=
    inParens_sound hexpr hp
  obtain ⟨inner, mid, hinner, hpure⟩ := accepts_bind_iff.1 hp₁
  obtain ⟨vs, ending, rfl, hbodyDerives, hadmits⟩ := hbody _ _ _ hinner
  obtain ⟨rfl, rfl⟩ := accepts_pure_iff.1 hpure
  exact ⟨opening :: (us ++ closing :: vs), ending, by simp,
    .whileLoop hword hopening hderives hclosing hbodyDerives, hadmits⟩

theorem forInitial_sound (hexpr : Expr.Sound expr .assignment) {initial : Option Stmt}
    (hp : Accepts (forInitial expr) ts initial rest) : ∃ us, ts = us ++ rest ∧ Initial us initial := by
  obtain ⟨t, us, rfl, hkind⟩ := accepts_peek_bind_iff.1 hp
  split at hkind
  · rename_i hsemicolon
    have hpure := (accepts_skip_bind_iff (by simp [hsemicolon])).1 hkind
    obtain ⟨rfl, rfl⟩ := accepts_pure_iff.1 hpure
    exact ⟨[t], rfl, .absent hsemicolon⟩
  · rename_i hvar
    have hmap := (accepts_skip_bind_iff (by simp [hvar])).1 hkind
    obtain ⟨s, hs, rfl⟩ := accepts_map_iff.1 hmap
    obtain ⟨vs, rfl, hdeclares⟩ := declaration_sound hexpr hvar hs
    exact ⟨t :: vs, rfl, .declares hdeclares⟩
  · obtain ⟨s, hs, rfl⟩ := accepts_map_iff.1 hkind
    obtain ⟨vs, value, semicolon, hvs, hderives, hsemicolon, rfl⟩ := beforeSemicolon_sound hexpr hs
    exact ⟨vs ++ [semicolon], by simpa using hvs, .expression hderives hsemicolon⟩

/-- A clause with the token that stops it. -/
theorem forClause_sound (hexpr : Expr.Sound expr .assignment) {stop : TokenKind}
    (hstop : stop ≠ .endMark) {reason : Reason} {clause : Option Expr}
    (hp : Accepts (forClause expr stop reason) ts clause rest) :
    ∃ us closing, ts = us ++ closing :: rest ∧ Clause us clause ∧ closing.kind = stop := by
  obtain ⟨clause', mid, hclause, hend⟩ := accepts_bind_iff.1 hp
  obtain ⟨closing, vs, rfl, hclosing, hpure⟩ := (accepts_expect_bind_iff hstop).1 hend
  obtain ⟨rfl, rfl⟩ := accepts_pure_iff.1 hpure
  obtain ⟨t, us, rfl, hif⟩ := accepts_peek_bind_iff.1 hclause
  split at hif
  · obtain ⟨rfl, heq⟩ := accepts_pure_iff.1 hif
    obtain ⟨rfl, rfl⟩ := List.cons.inj heq
    exact ⟨[], closing, rfl, .absent, hclosing⟩
  · obtain ⟨e, he, rfl⟩ := accepts_map_iff.1 hif
    obtain ⟨vs, hvs, hderives⟩ := hexpr _ _ _ he
    exact ⟨vs, closing, hvs, .present hderives, hclosing⟩

theorem forStatement_sound (hexpr : Expr.Sound expr .assignment) (hbody : Sound body) :
    SoundAfter .kwFor (forStatement expr body) := by
  intro word ts rest s hword hp
  obtain ⟨opening, us, rfl, hopening, hp₁⟩ := (accepts_expect_bind_iff (by simp)).1 hp
  obtain ⟨initial, mid, hinitial, hp₂⟩ := accepts_bind_iff.1 hp₁
  obtain ⟨us, rfl, hus⟩ := forInitial_sound hexpr hinitial
  obtain ⟨condition, mid, hcondition, hp₃⟩ := accepts_bind_iff.1 hp₂
  obtain ⟨vs, semicolon, rfl, hvs, hsemicolon⟩ := forClause_sound hexpr (by simp) hcondition
  obtain ⟨step, mid, hstep, hp₄⟩ := accepts_bind_iff.1 hp₃
  obtain ⟨ws, closing, rfl, hws, hclosing⟩ := forClause_sound hexpr (by simp) hstep
  obtain ⟨inner, mid, hinner, hpure⟩ := accepts_bind_iff.1 hp₄
  obtain ⟨xs, ending, rfl, hbodyDerives, hadmits⟩ := hbody _ _ _ hinner
  obtain ⟨rfl, rfl⟩ := accepts_pure_iff.1 hpure
  exact ⟨opening :: (us ++ (vs ++ semicolon :: (ws ++ closing :: xs))), ending, by simp,
    .forLoop hword hopening hus hvs hsemicolon hws hclosing hbodyDerives, hadmits⟩

theorem declarationOr_sound (hexpr : Expr.Sound expr .assignment) (hbody : Sound body)
    (hp : Accepts (declarationOr expr body) ts s rest) :
    ∃ us, ts = us ++ rest ∧ Derives (.declaration s) us := by
  obtain ⟨t, us, rfl, ⟨hvar, hmore⟩ | ⟨-, hmore⟩⟩ := (accepts_acceptAny_bind_iff rfl).1 hp
  · obtain ⟨vs, rfl, hdeclares⟩ := declaration_sound hexpr (by simpa using hvar) hmore
    exact ⟨t :: vs, rfl, .declares hdeclares⟩
  · obtain ⟨vs, ending, hvs, hderives, -⟩ := hbody _ _ _ hmore
    exact ⟨vs, hvs, .statement hderives⟩

/-- The loop over declarations stops in front of a token that closes them. -/
theorem declarations_sound (hexpr : Expr.Sound expr .assignment) (hbody : Sound body)
    (closes : TokenKind → Bool) (n : Nat) {ts rest : List Token} {ss : List Stmt}
    (hp : Accepts (declarations closes (declarationOr expr body) n) ts ss rest) :
    ∃ us t vs, rest = t :: vs ∧ closes t.kind = true ∧ ts = us ++ t :: vs ∧
      Derives (.declarations ss) us := by
  induction n generalizing ts ss with
  | zero => exact absurd hp not_accepts_overrun
  | succ n ih =>
    obtain ⟨t, us, rfl, hif⟩ := accepts_peek_bind_iff.1 hp
    split at hif
    · rename_i hcloses
      obtain ⟨rfl, rfl⟩ := accepts_pure_iff.1 hif
      exact ⟨[], t, us, rfl, hcloses, rfl, .nil⟩
    · obtain ⟨o, mid, hrecover, hmore⟩ := accepts_bind_iff.1 hif
      obtain ⟨s, rfl, hs⟩ := accepts_recover_iff.1 hrecover
      obtain ⟨vs, hvs, hderives⟩ := declarationOr_sound hexpr hbody hs
      obtain ⟨tail, mid, htail, hpure⟩ := accepts_bind_iff.1 hmore
      obtain ⟨rfl, rfl⟩ := accepts_pure_iff.1 hpure
      obtain ⟨ws, u, xs, rfl, hcloses, rfl, htailDerives⟩ := ih htail
      exact ⟨vs ++ ws, u, xs, rfl, hcloses, by simpa using hvs, .cons hderives htailDerives⟩

theorem blockStatement_sound (hexpr : Expr.Sound expr .assignment) (hbody : Sound body) (n : Nat) :
    SoundAfter .leftBrace (blockStatement n expr body) := by
  intro opening ts rest s hopening hp
  obtain ⟨inner, mid, hinner, hend⟩ := accepts_bind_iff.1 hp
  obtain ⟨us, t, vs, rfl, -, rfl, hderives⟩ := declarations_sound hexpr hbody closesBlock n hinner
  obtain ⟨closing, ws, heq, hclosing, hpure⟩ := (accepts_expect_bind_iff (by simp)).1 hend
  obtain ⟨rfl, rfl⟩ := List.cons.inj heq
  obtain ⟨rfl, rfl⟩ := accepts_pure_iff.1 hpure
  exact ⟨us ++ [t], .closed, by simp, .block hopening hderives hclosing, nofun⟩

theorem statement_sound (hexpr : Expr.Sound expr .assignment) (hbody : Sound body) (n : Nat) :
    Sound (statement n expr body) := by
  intro ts rest s hp
  obtain ⟨t, us, rfl, hkind⟩ := accepts_peek_bind_iff.1 hp
  split at hkind
  · rename_i hword
    exact (forStatement_sound hexpr hbody).skip (by simp) hword hkind
  · rename_i hword
    exact (conditional_sound hexpr hbody).skip (by simp) hword hkind
  · rename_i hword
    exact (printStatement_sound hexpr).skip (by simp) hword hkind
  · rename_i hword
    exact (whileLoop_sound hexpr hbody).skip (by simp) hword hkind
  · rename_i hword
    exact (blockStatement_sound hexpr hbody n).skip (by simp) hword hkind
  · obtain ⟨vs, value, semicolon, hvs, hderives, hsemicolon, rfl⟩ := beforeSemicolon_sound hexpr hkind
    exact ⟨vs ++ [semicolon], .closed, by simpa using hvs, .expression hderives hsemicolon, nofun⟩

end Sound

/-- What the statement parser accepts is a statement. -/
theorem parser_sound (n : Nat) : Sound (parser n) := by
  induction n with
  | zero =>
    intro ts rest s hp
    exact absurd hp not_accepts_overrun
  | succ n ih => exact statement_sound (Expr.parser_sound (n + 1)) ih n

/-! ## What is derived is accepted -/

section Complete

variable {ts rest : List Token} {n : Nat}

/-- An expression with a semicolon behind it, made into a statement. -/
theorem beforeSemicolon_accepts {value : Expr} (h : Expr.Derives .assignment ts value)
    {semicolon : Token} (hsemicolon : semicolon.kind = .semicolon)
    (hn : ts.length + rest.length < n) (make : Expr → Stmt) (reason : Reason) :
    Accepts (do let value ← Expr.parser n; let _ ← expect .semicolon reason; pure (make value))
      (ts ++ semicolon :: rest) (make value) rest := by
  have hvalue := h.accepted hn (hsemicolon ▸ Expr.Rung.stops_semicolon _)
  exact hvalue.bind (accepts_expect_bind (by simp) hsemicolon (accepts_pure_iff.2 ⟨rfl, rfl⟩))

/-- An expression in parentheses, and what comes behind it. -/
theorem inParens_accepts {opening closing : Token} {e : Expr} {us : List Token}
    (hopening : opening.kind = .leftParen) (he : Expr.Derives .assignment ts e)
    (hclosing : closing.kind = .rightParen) (hn : ts.length + us.length < n)
    {f : Expr → Parser Stmt} {before after : Reason} {s : Stmt} (hf : Accepts (f e) us s rest) :
    Accepts (do
        let _ ← expect .leftParen before
        let e ← Expr.parser n
        let _ ← expect .rightParen after
        f e)
      (opening :: (ts ++ closing :: us)) s rest := by
  have hinside := he.accepted hn (hclosing ▸ Expr.Rung.stops_rightParen _)
  refine accepts_expect_bind (by simp) hopening ?_
  exact hinside.bind (accepts_expect_bind (by simp) hclosing hf)

/-- Behind its first word a variable declaration is accepted, whatever follows. -/
theorem Declares.accepted {s : Stmt} (h : Declares ts s) :
    ∃ word us, ts = word :: us ∧ word.kind = .kwVar ∧ ∀ (n : Nat) (rest : List Token),
      us.length + rest.length < n → Accepts (declaration (Expr.parser n)) (us ++ rest) s rest := by
  cases h with
  | @bare word name semicolon hword hname hsemicolon =>
    refine ⟨word, [name, semicolon], rfl, hword, fun n rest _ => ?_⟩
    have hnone : Accepts (initialValue (Expr.parser n)) (semicolon :: rest) none (semicolon :: rest) :=
      (accepts_acceptAny_none rfl (by simp [hsemicolon]) rest).bind (accepts_pure_iff.2 ⟨rfl, rfl⟩)
    exact accepts_expect_bind (by simp) hname
      (hnone.bind (accepts_expect_bind (by simp) hsemicolon (accepts_pure_iff.2 ⟨rfl, rfl⟩)))
  | @initialized word name sign semicolon us value hword hname hsign hvalue hsemicolon =>
    refine ⟨word, name :: sign :: (us ++ [semicolon]), rfl, hword, fun n rest hn => ?_⟩
    simp only [List.length_cons, List.length_append, List.length_nil] at hn
    have haccepts : Accepts (Expr.parser n) (us ++ semicolon :: rest) value (semicolon :: rest) :=
      hvalue.accepted (by omega) (hsemicolon ▸ Expr.Rung.stops_semicolon _)
    have hsome : Accepts (initialValue (Expr.parser n)) (sign :: (us ++ semicolon :: rest)) (some value)
        (semicolon :: rest) :=
      (accepts_acceptAny_some rfl (by simp [hsign]) _).bind (accepts_map_iff.2 ⟨value, haccepts, rfl⟩)
    rw [List.cons_append, List.cons_append, List.append_assoc]
    refine accepts_expect_bind (by simp) hname ?_
    exact hsome.bind (accepts_expect_bind (by simp) hsemicolon (accepts_pure_iff.2 ⟨rfl, rfl⟩))

theorem Initial.accepted {initial : Option Stmt} (h : Initial ts initial)
    (hn : ts.length + rest.length ≤ n) :
    Accepts (forInitial (Expr.parser n)) (ts ++ rest) initial rest := by
  cases h with
  | @absent semicolon hsemicolon =>
    refine accepts_peek_bind_iff.2 ⟨semicolon, rest, rfl, ?_⟩
    simp only [hsemicolon]
    exact (accepts_skip_bind_iff (by simp [hsemicolon])).2 (accepts_pure_iff.2 ⟨rfl, rfl⟩)
  | declares hdeclares =>
    obtain ⟨word, us, rfl, hword, haccepts⟩ := hdeclares.accepted
    simp only [List.length_cons] at hn
    refine accepts_peek_bind_iff.2 ⟨word, us ++ rest, rfl, ?_⟩
    simp only [hword]
    exact (accepts_skip_bind_iff (by simp [hword])).2
      (accepts_map_iff.2 ⟨_, haccepts n rest (by omega), rfl⟩)
  | @expression semicolon us value hvalue hsemicolon =>
    simp only [List.length_append, List.length_cons, List.length_nil] at hn
    have haccepts : Accepts (expressionStatement (Expr.parser n)) (us ++ semicolon :: rest)
        (.expression value) rest :=
      beforeSemicolon_accepts hvalue hsemicolon (by omega) _ _
    obtain ⟨t, vs, rfl, hstarts, -⟩ := hvalue.first
    rw [List.append_assoc]
    refine accepts_peek_bind_iff.2 ⟨t, vs ++ semicolon :: rest, rfl, ?_⟩
    split
    · rename_i hkind
      simp [hkind, Expr.starts] at hstarts
    · rename_i hkind
      simp [hkind, Expr.starts] at hstarts
    · exact accepts_map_iff.2 ⟨_, haccepts, rfl⟩

theorem Clause.accepted {clause : Option Expr} (h : Clause ts clause) {closing : Token}
    {reason : Reason} (hclosing : closing.kind = .semicolon ∨ closing.kind = .rightParen)
    (hn : ts.length + rest.length < n) :
    Accepts (forClause (Expr.parser n) closing.kind reason) (ts ++ closing :: rest) clause rest := by
  have hmark : closing.kind ≠ .endMark := by rcases hclosing with h | h <;> simp [h]
  refine Accepts.bind ?_ (accepts_expect_bind hmark rfl (accepts_pure_iff.2 ⟨rfl, rfl⟩))
  cases h with
  | absent =>
    refine accepts_peek_bind_iff.2 ⟨closing, rest, rfl, ?_⟩
    rw [if_pos rfl]
    exact accepts_pure_iff.2 ⟨rfl, rfl⟩
  | @present us e he =>
    have hstops : Expr.Rung.assignment.Stops closing.kind := by
      rcases hclosing with h | h <;> rw [h]
      · exact Expr.Rung.stops_semicolon _
      · exact Expr.Rung.stops_rightParen _
    have haccepts := he.accepted hn hstops
    obtain ⟨t, vs, rfl, hstarts, -⟩ := he.first
    have hkind : t.kind ≠ closing.kind := fun hk => by
      rcases hclosing with h | h <;> simp [hk, h, Expr.starts] at hstarts
    refine accepts_peek_bind_iff.2 ⟨t, vs ++ closing :: rest, rfl, ?_⟩
    rw [if_neg hkind]
    exact accepts_map_iff.2 ⟨e, haccepts, rfl⟩

end Complete

/-- The parser of the phrase makes its tree of the tokens `ts`, whatever comes behind them that does
not belong to them. -/
def Accepted : Phrase → List Token → Prop
  | .declarations ss, ts =>
      ∀ (closes : TokenKind → Bool) (n m k : Nat) (t : Token) (rest : List Token),
      (∀ kind, closes kind = true → kind = .rightBrace ∨ kind = .endMark) → closes t.kind = true →
      ts.length + rest.length < n → ts.length + rest.length < m → ts.length + rest.length < k →
      Accepts (declarations closes (declarationOr (Expr.parser n) (parser m)) k)
        (ts ++ t :: rest) ss (t :: rest)
  | .declaration s, ts => ∀ (n m : Nat) (t : Token) (rest : List Token), t.kind ≠ .kwElse →
      ts.length + rest.length < n → ts.length + rest.length < m →
      Accepts (declarationOr (Expr.parser n) (parser m)) (ts ++ t :: rest) s (t :: rest)
  | .statement s ending, ts => ∀ (n : Nat) (t : Token) (rest : List Token),
      (ending = .dangling → t.kind ≠ .kwElse) →
      ts.length + rest.length < n → Accepts (parser n) (ts ++ t :: rest) s (t :: rest)

namespace Accepted

variable {ts us vs ws : List Token} {word opening closing semicolon : Token} {condition : Expr}
  {yes no body : Stmt} {ending : Ending}

theorem nil : Accepted (.declarations []) [] := by
  intro closes n m k t rest _ hcloses _ _ hk
  obtain ⟨k, rfl⟩ : ∃ i, k = i + 1 := ⟨k - 1, by omega⟩
  refine accepts_peek_bind_iff.2 ⟨t, rest, rfl, ?_⟩
  rw [if_pos hcloses]
  exact accepts_pure_iff.2 ⟨rfl, rfl⟩

/-- No token that closes declarations starts one. -/
theorem closes_eq_false {closes : TokenKind → Bool} {kind : TokenKind}
    (hclosers : ∀ kind, closes kind = true → kind = .rightBrace ∨ kind = .endMark)
    (h : kind = .kwVar ∨ starts kind = true) : closes kind = false := by
  cases hclose : closes kind with
  | false => rfl
  | true => rcases hclosers _ hclose with rfl | rfl <;> simp [starts, Expr.starts] at h

/-- Neither a token that closes declarations nor an `else` starts one. -/
theorem first_of_declarations {ss : List Stmt} (h : Derives (.declarations ss) us) (t : Token)
    (rest : List Token) (ht : t.kind ≠ .kwElse) :
    ∃ u vs, us ++ t :: rest = u :: vs ∧ u.kind ≠ .kwElse := by
  cases h with
  | nil => exact ⟨t, rest, rfl, ht⟩
  | cons hs _ =>
    obtain ⟨u, vs, rfl, hkind⟩ := hs.first_of_declaration
    refine ⟨u, _, rfl, fun helse => ?_⟩
    rcases hkind with hkind | hkind <;> simp [helse, starts, Expr.starts] at hkind

theorem cons {s : Stmt} {ss : List Stmt} (hs : Derives (.declaration s) ts)
    (hss : Derives (.declarations ss) us) (h : Accepted (.declaration s) ts)
    (h' : Accepted (.declarations ss) us) :
    Accepted (.declarations (s :: ss)) (ts ++ us) := by
  intro closes n m k t rest hclosers hcloses hn hm hk
  obtain ⟨k, rfl⟩ : ∃ i, k = i + 1 := ⟨k - 1, by omega⟩
  have ht : t.kind ≠ .kwElse := by rcases hclosers _ hcloses with h | h <;> simp [h]
  simp only [List.length_append] at hn hm hk
  obtain ⟨u, vs, hvs, hu⟩ := first_of_declarations hss t rest ht
  have hlength := congrArg List.length hvs
  simp only [List.length_append, List.length_cons] at hlength
  have hhead := h n m u vs hu (by omega) (by omega)
  obtain ⟨w, ws, rfl, hw⟩ := hs.first_of_declaration
  simp only [List.length_cons] at hn hm hk
  have htail := h' closes n m k t rest hclosers hcloses (by omega) (by omega) (by omega)
  have hopen := closes_eq_false hclosers hw
  rw [← hvs] at hhead
  rw [List.append_assoc]
  refine accepts_peek_bind_iff.2 ⟨w, ws ++ (us ++ t :: rest), rfl, ?_⟩
  rw [if_neg (by simp [hopen])]
  exact (accepts_recover_iff.2 ⟨s, rfl, hhead⟩).bind (htail.bind (accepts_pure_iff.2 ⟨rfl, rfl⟩))

theorem declares {s : Stmt} (h : Declares ts s) : Accepted (.declaration s) ts := by
  intro n m t rest _ hn _
  obtain ⟨word, us, rfl, hword, haccepts⟩ := h.accepted
  simp only [List.length_cons] at hn
  exact (accepts_acceptAny_some rfl (by simp [hword]) _).bind (haccepts n (t :: rest) (by simp; omega))

theorem statement {s : Stmt} (hs : Derives (.statement s ending) ts)
    (h : Accepted (.statement s ending) ts) :
    Accepted (.declaration s) ts := by
  intro n m t rest ht hn hm
  have haccepts := h m t rest (fun _ => ht) hm
  obtain ⟨u, us, rfl, hstarts⟩ := hs.first_of_statement
  have hkind : u.kind ≠ .kwVar := fun hk => by simp [hk, starts, Expr.starts] at hstarts
  exact (accepts_acceptAny_none rfl (by simpa using hkind) _).bind haccepts

theorem ifThen (hword : word.kind = .kwIf) (hopening : opening.kind = .leftParen)
    (hcondition : Expr.Derives .assignment ts condition) (hclosing : closing.kind = .rightParen)
    (h : Accepted (.statement yes ending) us) :
    Accepted (.statement (branch condition yes none) .dangling)
      (word :: opening :: (ts ++ closing :: us)) := by
  intro n t rest ht hn
  obtain ⟨n, rfl⟩ : ∃ i, n = i + 1 := ⟨n - 1, by omega⟩
  simp only [List.length_cons, List.length_append] at hn
  have hyes := h n t rest (fun _ => ht rfl) (by omega)
  have hnone : Accepts (accept .kwElse) (t :: rest) none (t :: rest) :=
    accepts_acceptAny_none rfl (by simpa using ht rfl) rest
  refine accepts_peek_bind_iff.2 ⟨word, opening :: (ts ++ closing :: (us ++ t :: rest)), by simp, ?_⟩
  simp only [hword]
  refine (accepts_skip_bind_iff (by simp [hword])).2 (inParens_accepts hopening hcondition hclosing
    (by simp; omega) ?_)
  exact hyes.bind (hnone.bind (accepts_pure_iff.2 ⟨rfl, rfl⟩))

theorem ifThenElse {otherwise : Token} (hword : word.kind = .kwIf)
    (hopening : opening.kind = .leftParen) (hcondition : Expr.Derives .assignment ts condition)
    (hclosing : closing.kind = .rightParen) (h : Accepted (.statement yes .closed) us)
    (hotherwise : otherwise.kind = .kwElse) (h' : Accepted (.statement no ending) vs) :
    Accepted (.statement (branch condition yes (some no)) ending)
      (word :: opening :: (ts ++ closing :: (us ++ otherwise :: vs))) := by
  intro n t rest ht hn
  obtain ⟨n, rfl⟩ : ∃ i, n = i + 1 := ⟨n - 1, by omega⟩
  simp only [List.length_cons, List.length_append] at hn
  have hyes := h n otherwise (vs ++ t :: rest) nofun (by simp; omega)
  have hfound : Accepts (accept .kwElse) (otherwise :: (vs ++ t :: rest)) (some otherwise)
      (vs ++ t :: rest) :=
    accepts_acceptAny_some rfl (by simpa using hotherwise) _
  have hno := h' n t rest ht (by omega)
  refine accepts_peek_bind_iff.2
    ⟨word, opening :: (ts ++ closing :: (us ++ otherwise :: (vs ++ t :: rest))), by simp, ?_⟩
  simp only [hword]
  refine (accepts_skip_bind_iff (by simp [hword])).2 (inParens_accepts hopening hcondition hclosing
    (by simp; omega) ?_)
  exact hyes.bind (hfound.bind (hno.bind (accepts_pure_iff.2 ⟨rfl, rfl⟩)))

theorem whileLoop (hword : word.kind = .kwWhile) (hopening : opening.kind = .leftParen)
    (hcondition : Expr.Derives .assignment ts condition) (hclosing : closing.kind = .rightParen)
    (h : Accepted (.statement body ending) us) :
    Accepted (.statement (loop condition body) ending) (word :: opening :: (ts ++ closing :: us)) := by
  intro n t rest ht hn
  obtain ⟨n, rfl⟩ : ∃ i, n = i + 1 := ⟨n - 1, by omega⟩
  simp only [List.length_cons, List.length_append] at hn
  have hbody := h n t rest ht (by omega)
  refine accepts_peek_bind_iff.2 ⟨word, opening :: (ts ++ closing :: (us ++ t :: rest)), by simp, ?_⟩
  simp only [hword]
  refine (accepts_skip_bind_iff (by simp [hword])).2 (inParens_accepts hopening hcondition hclosing
    (by simp; omega) ?_)
  exact hbody.bind (accepts_pure_iff.2 ⟨rfl, rfl⟩)

theorem forLoop {initial : Option Stmt} {condition step : Option Expr} (hword : word.kind = .kwFor)
    (hopening : opening.kind = .leftParen) (hinitial : Initial ts initial)
    (hcondition : Clause us condition) (hsemicolon : semicolon.kind = .semicolon)
    (hstep : Clause vs step) (hclosing : closing.kind = .rightParen)
    (h : Accepted (.statement body ending) ws) :
    Accepted (.statement (Stmt.forLoop initial condition step body) ending)
      (word :: opening :: (ts ++ (us ++ semicolon :: (vs ++ closing :: ws)))) := by
  intro n t rest ht hn
  obtain ⟨n, rfl⟩ : ∃ i, n = i + 1 := ⟨n - 1, by omega⟩
  simp only [List.length_cons, List.length_append] at hn
  have hfirst : Accepts (forInitial (Expr.parser (n + 1)))
      (ts ++ (us ++ semicolon :: (vs ++ closing :: (ws ++ t :: rest)))) initial
      (us ++ semicolon :: (vs ++ closing :: (ws ++ t :: rest))) :=
    hinitial.accepted (by simp; omega)
  have hsecond : Accepts (forClause (Expr.parser (n + 1)) .semicolon .semicolonAfterLoopCondition)
      (us ++ semicolon :: (vs ++ closing :: (ws ++ t :: rest))) condition
      (vs ++ closing :: (ws ++ t :: rest)) :=
    hsemicolon ▸ hcondition.accepted (.inl hsemicolon) (by simp; omega)
  have hthird : Accepts (forClause (Expr.parser (n + 1)) .rightParen .parenAfterForClauses)
      (vs ++ closing :: (ws ++ t :: rest)) step (ws ++ t :: rest) :=
    hclosing ▸ hstep.accepted (.inr hclosing) (by simp; omega)
  have hbody := h n t rest ht (by omega)
  refine accepts_peek_bind_iff.2
    ⟨word, opening :: (ts ++ (us ++ semicolon :: (vs ++ closing :: (ws ++ t :: rest)))), by simp, ?_⟩
  simp only [hword]
  refine (accepts_skip_bind_iff (by simp [hword])).2 (accepts_expect_bind (by simp) hopening ?_)
  exact hfirst.bind (hsecond.bind (hthird.bind (hbody.bind (accepts_pure_iff.2 ⟨rfl, rfl⟩))))

theorem print {value : Expr} (hword : word.kind = .kwPrint) (hvalue : Expr.Derives .assignment ts value)
    (hsemicolon : semicolon.kind = .semicolon) :
    Accepted (.statement (Stmt.print value) .closed) (word :: (ts ++ [semicolon])) := by
  intro n t rest _ hn
  obtain ⟨n, rfl⟩ : ∃ i, n = i + 1 := ⟨n - 1, by omega⟩
  simp only [List.length_cons, List.length_append, List.length_nil] at hn
  refine accepts_peek_bind_iff.2 ⟨word, ts ++ semicolon :: t :: rest, by simp, ?_⟩
  simp only [hword]
  exact (accepts_skip_bind_iff (by simp [hword])).2 (beforeSemicolon_accepts hvalue hsemicolon
    (by simp; omega) _ _)

theorem block {inner : List Stmt} (hopening : opening.kind = .leftBrace)
    (h : Accepted (.declarations inner) ts) (hclosing : closing.kind = .rightBrace) :
    Accepted (.statement (Stmt.block inner) .closed) (opening :: (ts ++ [closing])) := by
  intro n t rest _ hn
  obtain ⟨n, rfl⟩ : ∃ i, n = i + 1 := ⟨n - 1, by omega⟩
  simp only [List.length_cons, List.length_append, List.length_nil] at hn
  have hclosers : ∀ kind, closesBlock kind = true → kind = .rightBrace ∨ kind = .endMark := by
    simp [closesBlock]
  have hinner := h closesBlock (n + 1) n n closing (t :: rest) hclosers
    (by simp [closesBlock, hclosing]) (by simp; omega) (by simp; omega) (by simp; omega)
  refine accepts_peek_bind_iff.2 ⟨opening, ts ++ closing :: t :: rest, by simp, ?_⟩
  simp only [hopening]
  refine (accepts_skip_bind_iff (by simp [hopening])).2 ?_
  exact hinner.bind (accepts_expect_bind (by simp) hclosing (accepts_pure_iff.2 ⟨rfl, rfl⟩))

theorem expression {value : Expr} (hvalue : Expr.Derives .assignment ts value)
    (hsemicolon : semicolon.kind = .semicolon) :
    Accepted (.statement (Stmt.expression value) .closed) (ts ++ [semicolon]) := by
  intro n t rest _ hn
  obtain ⟨n, rfl⟩ : ∃ i, n = i + 1 := ⟨n - 1, by omega⟩
  simp only [List.length_append, List.length_cons, List.length_nil] at hn
  have haccepts : Accepts (expressionStatement (Expr.parser (n + 1))) (ts ++ semicolon :: t :: rest)
      (Stmt.expression value) (t :: rest) :=
    beforeSemicolon_accepts hvalue hsemicolon (by simp; omega) _ _
  obtain ⟨u, us, rfl, hstarts, -⟩ := hvalue.first
  refine accepts_peek_bind_iff.2 ⟨u, us ++ semicolon :: t :: rest, by simp, ?_⟩
  split
  case h_6 => exact haccepts
  all_goals
    rename_i hkind
    simp [hkind, Expr.starts] at hstarts

end Accepted

/-- What is derived is accepted, if no `else` comes behind it or it does not dangle. -/
theorem Derives.accepted {p : Phrase} {ts : List Token} (h : Derives p ts) : Accepted p ts := by
  induction h with
  | nil => exact .nil
  | cons hs hss ih ih' => exact .cons hs hss ih ih'
  | declares h => exact .declares h
  | statement hs ih => exact .statement hs ih
  | ifThen hword hopening hcondition hclosing _ ih =>
    exact .ifThen hword hopening hcondition hclosing ih
  | ifThenElse hword hopening hcondition hclosing _ hotherwise _ ih ih' =>
    exact .ifThenElse hword hopening hcondition hclosing ih hotherwise ih'
  | whileLoop hword hopening hcondition hclosing _ ih =>
    exact .whileLoop hword hopening hcondition hclosing ih
  | forLoop hword hopening hinitial hcondition hsemicolon hstep hclosing _ ih =>
    exact .forLoop hword hopening hinitial hcondition hsemicolon hstep hclosing ih
  | print hword hvalue hsemicolon => exact .print hword hvalue hsemicolon
  | block hopening _ hclosing ih => exact .block hopening ih hclosing
  | expression hvalue hsemicolon => exact .expression hvalue hsemicolon

/-! ## Programs -/

/-- Declarations with an end mark behind them are parsed to their trees without an error. -/
theorem Derives.parse_eq {ts : List Token} {ss : List Stmt} (h : Derives (.declarations ss) ts)
    {mark : Token} (hmark : mark.kind = .endMark) : parse (ts ++ [mark]) = ⟨ss, [], none⟩ := by
  have hprogram : Accepts (programParser (ts ++ [mark]).length) (ts ++ [mark]) ss [mark] :=
    h.accepted (· = .endMark) _ _ _ mark [] (by simp) (by simpa using hmark) (by simp)
      (by simp) (by simp)
  have hrun := run_eq_iff.2 ⟨by simp, [mark], hprogram⟩
  simp only [parse, hrun, Option.getD_some]

/-- Tokens with one end mark, in last position, that are parsed without an error are declarations
with the resulting trees. -/
theorem derives_of_parse_eq {ts : List Token} {mark : Token} (hts : ∀ t ∈ ts, t.kind ≠ .endMark)
    {ss : List Stmt} (h : parse (ts ++ [mark]) = ⟨ss, [], none⟩) :
    Derives (.declarations ss) ts := by
  obtain ⟨hresult, herrors, hfault⟩ := Parse.mk.inj h
  obtain ⟨ss', hrun⟩ := exists_run_eq (by simp) herrors hfault
  obtain ⟨-, rest, hprogram⟩ := run_eq_iff.1 hrun
  obtain rfl : ss' = ss := by rw [hrun] at hresult; exact hresult
  obtain ⟨us, t, vs, -, hcloses, hus, hderives⟩ :=
    declarations_sound (Expr.parser_sound _) (parser_sound _) _ _ hprogram
  obtain ⟨rfl, -, -⟩ := eq_of_append_endMark hts (by simpa using hcloses) hus
  exact hderives

/-- **Programs are parsed by their grammar.** Tokens with one end mark, in last position, are parsed
to given trees without an error exactly if the tokens before the mark are declarations with these
trees. No tokens are declarations in two ways. -/
theorem parse_iff_derives :
    (∀ (ts : List Token) (mark : Token) (ss : List Stmt), (∀ t ∈ ts, t.kind ≠ .endMark) →
      mark.kind = .endMark →
      (parse (ts ++ [mark]) = ⟨ss, [], none⟩ ↔ Derives (.declarations ss) ts)) ∧
    ∀ (ts : List Token) (ss ss' : List Stmt), Derives (.declarations ss) ts →
      Derives (.declarations ss') ts → ss = ss' := by
  refine ⟨?_, ?_⟩
  · intro ts mark ss hts hmark
    exact ⟨derives_of_parse_eq hts, fun h => h.parse_eq hmark⟩
  · intro ts ss ss' h h'
    have hparse : parse (ts ++ [Token.endOn 1]) = ⟨ss, [], none⟩ := h.parse_eq rfl
    have hparse' : parse (ts ++ [Token.endOn 1]) = ⟨ss', [], none⟩ := h'.parse_eq rfl
    simpa using hparse.symm.trans hparse'

/-- In `if (a) if (b) print a; else print b;` the `else` belongs to the second `if`. -/
theorem parse_iff_derives_nested_if :
    let t (kind : TokenKind) (lexeme : String) : Token := ⟨kind, lexeme, none, 1⟩
    let a := t .identifier "a"
    let b := t .identifier "b"
    let inner := [t .kwIf "if", t .leftParen "(", b, t .rightParen ")", t .kwPrint "print", a,
      t .semicolon ";", t .kwElse "else", t .kwPrint "print", b, t .semicolon ";"]
    parse (t .kwIf "if" :: t .leftParen "(" :: a :: t .rightParen ")" :: inner ++ [Token.endOn 1]) =
      ⟨[branch (.reference a) (branch (.reference b) (print (.reference a))
        (some (print (.reference b)))) none], [], none⟩ := by
  intro t a b inner
  have hname : ∀ t : Token, t.kind = .identifier → Expr.Derives .assignment [t] (.reference t) := by
    intro t ht
    iterate 8 apply Expr.Derives.tighter
    exact .name ht
  have hprint : ∀ c : Token, c.kind = .identifier →
      Derives (.statement (print (.reference c)) .closed) [t .kwPrint "print", c, t .semicolon ";"] :=
    fun c hc => .print rfl (hname c hc) rfl
  have hinner : Derives (.statement _ .closed) inner :=
    .ifThenElse rfl rfl (hname b rfl) rfl (hprint a rfl) rfl (hprint b rfl)
  have houter : Derives (.statement _ .dangling)
      (t .kwIf "if" :: t .leftParen "(" :: a :: t .rightParen ")" :: inner) :=
    .ifThen rfl rfl (hname a rfl) rfl hinner
  have hprogram := Derives.cons (.statement houter) .nil
  rw [List.append_nil] at hprogram
  exact (parse_iff_derives.1 _ _ _ (by decide) rfl).2 hprogram

end Lox.Stmt
