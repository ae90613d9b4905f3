import Lox.Stmt.Parse
import Lox.Proofs.Expr.Behaviour

/-!
The statement parser on any tokens with an end mark: it does not fault, goes past no end mark, and
every tree it builds is known, also those it keeps after it dropped a declaration. The loop over
declarations comes to its end because each round goes past a token, recovery included.
-/

namespace Lox.Stmt

open Lox.Parser

theorem AllKnown.append {ss ts : List Stmt} (h : AllKnown ss) (h' : AllKnown ts) :
    AllKnown (ss ++ ts) := by
  induction ss with
  | nil => exact h'
  | cons s ss ih => exact ⟨h.1, ih h.2⟩

theorem AllKnown.of_option {o : Option Stmt} (h : ∀ s, o = some s → s.Known) : AllKnown o.toList := by
  cases o with
  | none => trivial
  | some s => exact ⟨h s rfl, trivial⟩

/-- A `for` loop of known parts is known. -/
theorem forLoop_known {initial : Option Stmt} {condition step : Option Expr} {body : Stmt}
    (hinitial : ∀ s, initial = some s → s.Known) (hcondition : ∀ e, condition = some e → e.Known)
    (hstep : ∀ e, step = some e → e.Known) (hbody : body.Known) :
    (forLoop initial condition step body).Known := by
  have hround : AllKnown (body :: (step.map expression).toList) := by
    refine ⟨hbody, .of_option fun s hs => ?_⟩
    obtain ⟨e, he, rfl⟩ := Option.map_eq_some_iff.1 hs
    exact hstep e he
  have htest : (condition.getD (.literal (.boolean true))).Known := by
    cases condition with
    | none => trivial
    | some e => exact hcondition e rfl
  have hloop : AllKnown [loop (condition.getD (.literal (.boolean true)))
      (block (body :: (step.map expression).toList))] :=
    ⟨⟨htest, hround⟩, trivial⟩
  exact AllKnown.append (.of_option hinitial) hloop

section Constructs

variable {n : Nat} {expr : Parser Expr} {body : Parser Stmt} (hexpr : Builds expr n Expr.Known)
  (hbody : Builds body n Known)

include hexpr

theorem initialValue_behaves {ts : List Token} (hts : Marked ts) (hlength : ts.length ≤ n) :
    Behaves (initialValue expr) ts fun o _ => ∀ e, o = some e → e.Known := by
  obtain ⟨t, us, rfl⟩ := hts.exists_cons
  refine behaves_acceptAny_bind rfl (behaves_pure nofun) fun _ hkind => ?_
  simp only [List.length_cons] at hlength
  refine (hexpr us (hts.tail hkind) (by omega)).map fun e rest _ he e' he' => ?_
  exact Option.some.inj he' ▸ he.1

theorem declaration_builds : Builds (declaration expr) n Known := by
  intro ts hts hlength
  have hname := behaves_expect hts (by simp : TokenKind.identifier ≠ .endMark) .variableName
  refine hname.bind fun name mid hmid hname => ?_
  have hmarked := hmid.marked hts
  refine (initialValue_behaves hexpr hmarked (by omega)).bind fun initial after hafter hinitial => ?_
  have hsemicolon := behaves_expect (hafter.marked hmarked) (by simp : TokenKind.semicolon ≠ .endMark)
    .semicolonAfterDeclaration
  refine hsemicolon.bind fun _ rest hrest _ => behaves_pure ⟨?_, ?_⟩
  · cases initial with
    | none => trivial
    | some e => exact hinitial e rfl
  · exact Nat.lt_of_le_of_lt (hafter.trans hrest).length_le hname.2

/-- An expression with a semicolon behind it, made into a statement. -/
theorem beforeSemicolon_builds (make : Expr → Stmt) (hmake : ∀ e : Expr, e.Known → (make e).Known)
    (reason : Reason) :
    Builds (do let value ← expr; let _ ← expect .semicolon reason; pure (make value)) n Known := by
  intro ts hts hlength
  refine (hexpr ts hts hlength).bind fun e mid hmid he => ?_
  have hsemicolon := behaves_expect (hmid.marked hts) (by simp : TokenKind.semicolon ≠ .endMark) reason
  refine hsemicolon.bind fun _ rest hrest _ => behaves_pure ⟨hmake e he.1, ?_⟩
  exact Nat.lt_of_le_of_lt hrest.length_le he.2

theorem expressionStatement_builds : Builds (expressionStatement expr) n Known :=
  beforeSemicolon_builds hexpr expression (fun _ he => he) .semicolonAfterExpression

theorem printStatement_builds : Builds (printStatement expr) n Known :=
  beforeSemicolon_builds hexpr print (fun _ he => he) .semicolonAfterValue

/-- An expression in parentheses, and what comes behind it. -/
theorem inParens_behaves {f : Expr → Parser Stmt} {Q : Stmt → List Token → Prop} {ts : List Token}
    (hts : Marked ts) (hlength : ts.length ≤ n) (before after : Reason)
    (hf : ∀ (e : Expr) (mid : List Token), Leaves ts mid → mid.length < ts.length → e.Known →
      Behaves (f e) mid Q) :
    Behaves (do
        let _ ← expect .leftParen before
        let e ← expr
        let _ ← expect .rightParen after
        f e) ts Q := by
  have hopening := behaves_expect hts (by simp : TokenKind.leftParen ≠ .endMark) before
  refine hopening.bind fun _ us hus hopened => ?_
  refine (hexpr us (hus.marked hts) (by omega)).bind fun e vs hvs he => ?_
  have hleaves := hus.trans hvs
  have hclosing := behaves_expect (hleaves.marked hts) (by simp : TokenKind.rightParen ≠ .endMark) after
  refine hclosing.bind fun _ ws hws _ => ?_
  exact hf e ws (hleaves.trans hws) (Nat.lt_of_le_of_lt (hvs.trans hws).length_le hopened.2) he.1

theorem forInitial_behaves {ts : List Token} (hts : Marked ts) (hlength : ts.length ≤ n) :
    Behaves (forInitial expr) ts fun o rest => (∀ s, o = some s → s.Known) ∧
      rest.length < ts.length := by
  obtain ⟨t, us, rfl⟩ := hts.exists_cons
  refine behaves_peek_bind ?_
  split
  · rename_i hkind
    exact behaves_skip_bind (by simp [hkind]) (behaves_pure ⟨nofun, by simp⟩)
  · rename_i hvar
    have hkind : t.kind ≠ .endMark := by simp [hvar]
    refine behaves_skip_bind hkind ?_
    simp only [List.length_cons] at hlength
    refine (declaration_builds hexpr us (hts.tail hkind) (by omega)).map fun s rest _ hs =>
      ⟨fun s' hs' => ?_, ?_⟩
    · exact Option.some.inj hs' ▸ hs.1
    · exact Nat.lt_succ_of_lt hs.2
  · refine (expressionStatement_builds hexpr _ hts hlength).map fun s rest _ hs =>
      ⟨fun s' hs' => ?_, hs.2⟩
    exact Option.some.inj hs' ▸ hs.1

theorem forClause_behaves {stop : TokenKind} (hstop : stop ≠ .endMark) (reason : Reason)
    {ts : List Token} (hts : Marked ts) (hlength : ts.length ≤ n) :
    Behaves (forClause expr stop reason) ts fun o _ => ∀ e, o = some e → e.Known := by
  have hoptional : Behaves (optionalExpr expr stop) ts fun o _ => ∀ e, o = some e → e.Known := by
    obtain ⟨t, us, rfl⟩ := hts.exists_cons
    refine behaves_peek_bind ?_
    split
    · exact behaves_pure nofun
    · refine (hexpr _ hts hlength).map fun e rest _ he e' he' => ?_
      exact Option.some.inj he' ▸ he.1
  refine hoptional.bind fun clause mid hmid hclause => ?_
  exact (behaves_expect (hmid.marked hts) hstop reason).bind fun _ rest _ _ => behaves_pure hclause

include hbody

theorem conditional_builds : Builds (conditional expr body) n Known := by
  intro ts hts hlength
  refine inParens_behaves hexpr hts hlength .parenAfterIf .parenAfterIfCondition ?_
  intro condition us hus hshort hcondition
  have hmarked := hus.marked hts
  refine (hbody us hmarked (by omega)).bind fun yes vs hvs hyes => ?_
  have hmarked' := hvs.marked hmarked
  obtain ⟨t, ws, rfl⟩ := hmarked'.exists_cons
  have hbare : (branch condition yes none).Known := ⟨hcondition, hyes.1, trivial⟩
  refine behaves_acceptAny_bind rfl (behaves_pure ⟨hbare, by omega⟩) fun _ hkind => ?_
  simp only [List.length_cons] at hyes
  refine (hbody ws (hmarked'.tail hkind) (by omega)).bind fun no rest hrest hno => ?_
  exact behaves_pure ⟨⟨hcondition, hyes.1, hno.1⟩, by omega⟩

theorem whileLoop_builds : Builds (whileLoop expr body) n Known := by
  intro ts hts hlength
  refine inParens_behaves hexpr hts hlength .parenAfterWhile .parenAfterCondition ?_
  intro condition us hus hshort hcondition
  refine (hbody us (hus.marked hts) (by omega)).bind fun inner rest hrest hinner => ?_
  exact behaves_pure ⟨⟨hcondition, hinner.1⟩, by omega⟩

theorem forStatement_builds : Builds (forStatement expr body) n Known := by
  intro ts hts hlength
  have hopening := behaves_expect hts (by simp : TokenKind.leftParen ≠ .endMark) .parenAfterFor
  refine hopening.bind fun _ us hus hopened => ?_
  have hmarked₁ := hus.marked hts
  refine (forInitial_behaves hexpr hmarked₁ (by omega)).bind fun initial vs hvs hinitial => ?_
  have hmarked₂ := hvs.marked hmarked₁
  have hcondition := forClause_behaves hexpr (by simp : TokenKind.semicolon ≠ .endMark)
    .semicolonAfterLoopCondition hmarked₂ (by omega)
  refine hcondition.bind fun condition ws hws hcondition => ?_
  have hmarked₃ := hws.marked hmarked₂
  have hlength₃ := hws.length_le
  have hstep := forClause_behaves hexpr (by simp : TokenKind.rightParen ≠ .endMark)
    .parenAfterForClauses hmarked₃ (by omega)
  refine hstep.bind fun step xs hxs hstep => ?_
  have hlength₄ := hxs.length_le
  refine (hbody xs (hxs.marked hmarked₃) (by omega)).bind fun inner rest hrest hinner => ?_
  exact behaves_pure ⟨forLoop_known hinitial.1 hcondition hstep hinner.1, by omega⟩

theorem declarationOr_builds : Builds (declarationOr expr body) n Known := by
  intro ts hts hlength
  obtain ⟨t, us, rfl⟩ := hts.exists_cons
  refine behaves_acceptAny_bind rfl (hbody _ hts hlength) fun _ hkind => ?_
  simp only [List.length_cons] at hlength
  refine (declaration_builds hexpr us (hts.tail hkind) (by omega)).mono fun s rest _ hs => ⟨hs.1, ?_⟩
  exact Nat.lt_succ_of_lt hs.2

end Constructs

/-- The loop over declarations ends, and keeps known trees only. -/
theorem declarations_behaves {n : Nat} {one : Parser Stmt} (h : Builds one n Known)
    {closes : TokenKind → Bool} (hcloses : closes .endMark = true) (m : Nat) {ts : List Token}
    (hts : Marked ts) (hn : ts.length ≤ n) (hm : ts.length ≤ m) :
    Behaves (declarations closes one m) ts fun ss _ => AllKnown ss := by
  induction m generalizing ts with
  | zero => exact absurd hts.length_pos (by omega)
  | succ m ih =>
    obtain ⟨t, us, rfl⟩ := hts.exists_cons
    refine behaves_peek_bind ?_
    split
    · exact behaves_pure trivial
    · rename_i hopen
      have hkind : t.kind ≠ .endMark := fun hk => hopen (hk ▸ hcloses)
      refine ((h _ hts hn).recover rfl hkind hts).bind fun head mid hmid hhead => ?_
      refine (ih (hmid.marked hts) (by omega) (by omega)).bind fun tail rest _ htail => ?_
      exact behaves_pure (AllKnown.append (.of_option hhead.1) htail)

theorem blockStatement_builds {n : Nat} {expr : Parser Expr} {body : Parser Stmt}
    (hexpr : Builds expr n Expr.Known) (hbody : Builds body n Known) :
    Builds (blockStatement n expr body) n Known := by
  intro ts hts hlength
  have hinner : Behaves (declarations closesBlock (declarationOr expr body) n) ts
      fun ss _ => AllKnown ss :=
    declarations_behaves (declarationOr_builds hexpr hbody) rfl n hts hlength hlength
  refine hinner.bind fun inner mid hmid hknown => ?_
  have hclosing := behaves_expect (hmid.marked hts)
    (by simp : TokenKind.rightBrace ≠ .endMark) .braceAfterBlock
  refine hclosing.bind fun _ rest _ hrest => behaves_pure ⟨hknown, ?_⟩
  exact Nat.lt_of_lt_of_le hrest.2 hmid.length_le

theorem statement_builds {n : Nat} {expr : Parser Expr} {body : Parser Stmt}
    (hexpr : Builds expr (n + 1) Expr.Known) (hbody : Builds body n Known) :
    Builds (statement n expr body) (n + 1) Known := by
  intro ts hts hlength
  obtain ⟨t, us, rfl⟩ := hts.exists_cons
  have hinside := hexpr.mono (Nat.le_succ n)
  refine behaves_peek_bind ?_
  -- every construct that starts with a word comes behind that word
  have hword : ∀ {p : Parser Stmt}, t.kind ≠ .endMark → Builds p n Known →
      Behaves (do skip; p) (t :: us) fun s rest => s.Known ∧ rest.length < (t :: us).length := by
    intro p hkind hp
    refine behaves_skip_bind hkind ?_
    refine (hp us (hts.tail hkind) (by simpa using hlength)).mono fun s rest _ hs => ⟨hs.1, ?_⟩
    exact Nat.lt_succ_of_lt hs.2
  split
  · rename_i hkind
    exact hword (by simp [hkind]) (forStatement_builds hinside hbody)
  · rename_i hkind
    exact hword (by simp [hkind]) (conditional_builds hinside hbody)
  · rename_i hkind
    exact hword (by simp [hkind]) (printStatement_builds hinside)
  · rename_i hkind
    exact hword (by simp [hkind]) (whileLoop_builds hinside hbody)
  · rename_i hkind
    exact hword (by simp [hkind]) (blockStatement_builds hinside hbody)
  · exact expressionStatement_builds hexpr _ hts hlength

/-- On at most `n` tokens the statement parser builds known trees. -/
theorem parser_builds (n : Nat) : Builds (parser n) n Known := by
  induction n with
  | zero => exact builds_zero
  | succ n ih => exact statement_builds (Expr.parser_builds (n + 1)) ih

/-- Parsing tokens with an end mark as a program does not fault, and gives known trees. -/
theorem parse_safe {tokens : List Token} (h : Marked tokens) :
    (parse tokens).fault = none ∧ AllKnown (parse tokens).result := by
  have hone := declarationOr_builds (Expr.parser_builds tokens.length) (parser_builds tokens.length)
  have hprogram : Behaves (programParser tokens.length) tokens fun ss _ => AllKnown ss :=
    declarations_behaves hone rfl _ h (Nat.le_refl _) (Nat.le_refl _)
  obtain ⟨hfault, hresult⟩ := hprogram.run
  refine ⟨hfault, ?_⟩
  unfold parse
  dsimp only
  cases hss : (Parser.run (programParser tokens.length) tokens).result with
  | none => trivial
  | some ss =>
    obtain ⟨_, hknown⟩ := hresult ss hss
    exact hknown

end Lox.Stmt
