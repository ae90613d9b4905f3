import Lox.Proofs.Expr.Pairing
import Lox.Proofs.Stmt.Behaviour

/-!
The statement parser on two lists that belong together: it builds statements that are alike, drops the
same declarations, and complains about tokens that are alike.

* `Finishes P Q ts us`: a semicolon that has to come next is met, or missed, on both lists.

The parsers of simple statements only need a pairing up to their semicolon; what is behind it is for the
caller to say. All others go past semicolons, and so need a pairing that goes on behind them.
-/

namespace Lox.Stmt

open Lox.Parser

variable {T : Likeness} {P : Pairing T} {n m : Nat} {expr expr' : Parser Expr} {ts us mid mid' : List Token}

/-! ## Trees -/

theorem Alike.declareOption {name name' : Token} {initial initial' : Option Expr} (hname : T.Rel name name')
    (h : Option.Rel (Expr.Alike T) initial initial') : Alike T (Stmt.declare name initial) (Stmt.declare name' initial') := by
  cases h with
  | none => exact .declare hname
  | some hvalue => exact .initialized hname hvalue

theorem AllAlike.of_option {o o' : Option Stmt} (h : Option.Rel (Alike T) o o') : AllAlike T o.toList o'.toList := by
  cases h with
  | none => exact .nil
  | some hs => exact .cons hs .nil

/-- Loops of parts that are alike are alike. -/
theorem Alike.forLoop {initial initial' : Option Stmt} {condition condition' step step' : Option Expr}
    {body body' : Stmt} (hinitial : Option.Rel (Alike T) initial initial')
    (hcondition : Option.Rel (Expr.Alike T) condition condition') (hstep : Option.Rel (Expr.Alike T) step step')
    (hbody : Alike T body body') :
    Alike T (Stmt.forLoop initial condition step body) (Stmt.forLoop initial' condition' step' body') := by
  have htest : Expr.Alike T (condition.getD (.literal (.boolean true))) (condition'.getD (.literal (.boolean true))) := by
    cases hcondition with
    | none => exact .literal _
    | some h => exact h
  have hstep' : Option.Rel (Alike T) (step.map Stmt.expression) (step'.map Stmt.expression) := by
    cases hstep with
    | none => exact .none
    | some h => exact .some (.expression h)
  have hround : AllAlike T (body :: (step.map Stmt.expression).toList) (body' :: (step'.map Stmt.expression).toList) :=
    .cons hbody (.of_option hstep')
  exact .block ((AllAlike.of_option hinitial).append (.cons (.loop htest (.block hround)) .nil))

/-! ## Simple statements -/

/-- On what is left of two lists, a semicolon that has to come next gives the statement in front of it, or
is missed, on both sides. -/
def Finishes (P : Pairing T) (Q : Stmt → Stmt → List Token → List Token → Prop) (ts us : List Token) : Prop :=
  ∀ (reason : Reason) (s s' : Stmt) (mid mid' : List Token), Alike T s s' → P.Within ts us mid mid' →
    Abreast T Q (P.Within ts us) (expect .semicolon reason >>= fun _ => pure s)
      (expect .semicolon reason >>= fun _ => pure s') mid mid'

section Simple

variable (hpasses : ∀ kind, kind ≠ .semicolon → kind ≠ .endMark → P.Passes kind)
  (hexpr : Paired P (Expr.Alike T) n m expr expr') {Q : Stmt → Stmt → List Token → List Token → Prop}

include hpasses hexpr

theorem initialValue_abreast (hmid : P.Within ts us mid mid') (hn : mid.length ≤ n) (hm : mid'.length ≤ m) :
    Abreast T (fun o o' rest rest' => Option.Rel (Expr.Alike T) o o' ∧ P.Within ts us rest rest') (P.Within ts us)
      (initialValue expr) (initialValue expr') mid mid' := by
  refine abreast_acceptAny_bind rfl ?_ hmid.rel (abreast_pure ⟨.none, hmid⟩) ?_
  · intro kind hasked
    rw [of_decide_eq_true hasked]
    exact hpasses .equal (by simp) (by simp)
  · rintro sign vs sign' ws rfl rfl - - htail
    have hrest := hmid.trans (Pairing.Within.refl htail).cons
    simp only [List.length_cons] at hn hm
    refine (hexpr.within hrest (by omega) (by omega)).map fun e e' rest rest' he => ?_
    exact ⟨.some he.1, he.2⟩

theorem declaration_abreast (hend : Finishes P Q ts us) (hmid : P.Within ts us mid mid') (hn : ts.length ≤ n)
    (hm : us.length ≤ m) : Abreast T Q (P.Within ts us) (declaration expr) (declaration expr') mid mid' := by
  have hname := abreast_expect (by simp) (hpasses .identifier (by simp) (by simp)) .variableName hmid
  refine hname.bind fun name name' vs ws hname => ?_
  have hle := hname.2.le
  have hle' := hname.2.le'
  have hinitial := initialValue_abreast hpasses hexpr hname.2 (by omega) (by omega)
  refine hinitial.bind fun initial initial' rest rest' hinitial => ?_
  exact hend .semicolonAfterDeclaration _ _ rest rest' (.declareOption hname.1 hinitial.1) hinitial.2

omit hpasses in
/-- An expression with a semicolon behind it, made into a statement. -/
theorem beforeSemicolon_abreast (hend : Finishes P Q ts us) (hmid : P.Within ts us mid mid') (hn : ts.length ≤ n)
    (hm : us.length ≤ m) {make : Expr → Stmt} (hmake : ∀ e e', Expr.Alike T e e' → Alike T (make e) (make e'))
    (reason : Reason) :
    Abreast T Q (P.Within ts us) (do let value ← expr; let _ ← expect .semicolon reason; pure (make value))
      (do let value ← expr'; let _ ← expect .semicolon reason; pure (make value)) mid mid' := by
  have hle := hmid.le
  have hle' := hmid.le'
  refine (hexpr.within hmid (by omega) (by omega)).bind fun e e' rest rest' he => ?_
  exact hend reason _ _ rest rest' (hmake e e' he.1) he.2

end Simple

/-! ## Statements -/

section Constructs

variable {body body' : Parser Stmt} (hpasses : ∀ kind, kind ≠ .endMark → P.Passes kind)
  (hexpr : Paired P (Expr.Alike T) n m expr expr') (hbody : Paired P (Alike T) n m body body')

include hpasses

theorem finishes_semicolon (ts us : List Token) :
    Finishes P (fun s s' rest rest' => Alike T s s' ∧ P.Within ts us rest rest') ts us := by
  intro reason s s' mid mid' hs hmid
  have hsemicolon := abreast_expect (by simp) (hpasses .semicolon (by simp)) reason hmid
  exact hsemicolon.bind fun _ _ rest rest' hrest => abreast_pure ⟨hs, hrest.2⟩

include hexpr

theorem declaration_paired : Paired P (Alike T) n m (declaration expr) (declaration expr') :=
  fun ts us hrel hn hm => declaration_abreast (fun kind _ => hpasses kind) hexpr (finishes_semicolon hpasses ts us)
    (.refl hrel) hn hm

theorem expressionStatement_paired :
    Paired P (Alike T) n m (expressionStatement expr) (expressionStatement expr') :=
  fun ts us hrel hn hm => beforeSemicolon_abreast hexpr (finishes_semicolon hpasses ts us) (.refl hrel) hn hm
    (fun _ _ => .expression) _

theorem printStatement_paired : Paired P (Alike T) n m (printStatement expr) (printStatement expr') :=
  fun ts us hrel hn hm => beforeSemicolon_abreast hexpr (finishes_semicolon hpasses ts us) (.refl hrel) hn hm
    (fun _ _ => .print) _

/-- An expression in parentheses, and what comes behind it. -/
theorem inParens_abreast {f f' : Expr → Parser Stmt} {Q : Stmt → Stmt → List Token → List Token → Prop}
    (hrel : P.Rel ts us) (hn : ts.length ≤ n) (hm : us.length ≤ m) (before after : Reason)
    (hf : ∀ e e' rest rest', Expr.Alike T e e' → P.Within ts us rest rest' →
      Abreast T Q (P.Within ts us) (f e) (f' e') rest rest') :
    Abreast T Q (P.Within ts us)
      (do
        let _ ← expect .leftParen before
        let e ← expr
        let _ ← expect .rightParen after
        f e)
      (do
        let _ ← expect .leftParen before
        let e ← expr'
        let _ ← expect .rightParen after
        f' e) ts us := by
  have hopening := abreast_expect (by simp) (hpasses .leftParen (by simp)) before (Pairing.Within.refl hrel)
  refine hopening.bind fun _ _ vs ws hopened => ?_
  have hle := hopened.2.le
  have hle' := hopened.2.le'
  refine (hexpr.within hopened.2 (by omega) (by omega)).bind fun e e' vs ws he => ?_
  have hclosing := abreast_expect (by simp) (hpasses .rightParen (by simp)) after he.2
  exact hclosing.bind fun _ _ rest rest' hrest => hf e e' rest rest' he.1 hrest.2

theorem forInitial_paired :
    Paired P (Option.Rel (Alike T)) n m (forInitial expr) (forInitial expr') := by
  intro ts us hrel hn hm
  refine abreast_peek_bind hrel ?_
  rintro t ts u us rfl rfl htoken
  rw [T.kind_eq htoken]
  split
  · rename_i hkind
    have htail := P.tail hrel (hpasses _ (by simp [hkind]))
    exact abreast_skip_bind htoken (by simp [hkind]) (abreast_pure ⟨.none, (Pairing.Within.refl htail).cons⟩)
  · rename_i hkind
    have htail := P.tail hrel (hpasses _ (by simp [hkind]))
    have hrest : P.Within (t :: ts) (u :: us) ts us := (Pairing.Within.refl htail).cons
    have hvar := (declaration_paired hpasses hexpr).within hrest (Nat.le_of_succ_le hn) (Nat.le_of_succ_le hm)
    exact abreast_skip_bind htoken (by simp [hkind]) (hvar.map fun _ _ _ _ hs => ⟨.some hs.1, hs.2⟩)
  · exact (expressionStatement_paired hpasses hexpr _ _ hrel hn hm).map fun _ _ _ _ hs => ⟨.some hs.1, hs.2⟩

theorem forClause_paired {stop : TokenKind} (hstop : stop ≠ .endMark) (reason : Reason) :
    Paired P (Option.Rel (Expr.Alike T)) n m (forClause expr stop reason) (forClause expr' stop reason) := by
  intro ts us hrel hn hm
  have hoptional : Abreast T (fun o o' rest rest' => Option.Rel (Expr.Alike T) o o' ∧ P.Within ts us rest rest')
      (P.Within ts us) (optionalExpr expr stop) (optionalExpr expr' stop) ts us := by
    refine abreast_peek_bind hrel ?_
    rintro t ts u us rfl rfl htoken
    rw [T.kind_eq htoken]
    split
    · exact abreast_pure ⟨.none, .refl hrel⟩
    · exact (hexpr _ _ hrel hn hm).map fun _ _ _ _ he => ⟨.some he.1, he.2⟩
  refine hoptional.bind fun clause clause' mid mid' hclause => ?_
  have hclosing := abreast_expect hstop (hpasses stop hstop) reason hclause.2
  exact hclosing.bind fun _ _ rest rest' hrest => abreast_pure ⟨hclause.1, hrest.2⟩

include hbody

theorem conditional_paired : Paired P (Alike T) n m (conditional expr body) (conditional expr' body') := by
  intro ts us hrel hn hm
  refine inParens_abreast hpasses hexpr hrel hn hm .parenAfterIf .parenAfterIfCondition ?_
  intro condition condition' vs ws hcondition hinside
  have hle := hinside.le
  have hle' := hinside.le'
  refine (hbody.within hinside (by omega) (by omega)).bind fun yes yes' vs ws hyes => ?_
  obtain ⟨hyes, hbehind⟩ := hyes
  refine abreast_acceptAny_bind rfl ?_ hbehind.rel (abreast_pure ⟨.ifThen hcondition hyes, hbehind⟩) ?_
  · intro kind hasked
    rw [of_decide_eq_true hasked]
    exact hpasses .kwElse (by simp)
  · rintro t vs u ws rfl rfl - - htail
    have hle := hbehind.le
    have hle' := hbehind.le'
    simp only [List.length_cons] at hle hle'
    have hrest : P.Within ts us vs ws := ⟨htail, by omega, by omega⟩
    refine (hbody.within hrest (by omega) (by omega)).bind fun no no' rest rest' hno => ?_
    exact abreast_pure ⟨.ifThenElse hcondition hyes hno.1, hno.2⟩

theorem whileLoop_paired : Paired P (Alike T) n m (whileLoop expr body) (whileLoop expr' body') := by
  intro ts us hrel hn hm
  refine inParens_abreast hpasses hexpr hrel hn hm .parenAfterWhile .parenAfterCondition ?_
  intro condition condition' vs ws hcondition hinside
  have hle := hinside.le
  have hle' := hinside.le'
  refine (hbody.within hinside (by omega) (by omega)).bind fun inner inner' rest rest' hinner => ?_
  exact abreast_pure ⟨.loop hcondition hinner.1, hinner.2⟩

theorem forStatement_paired : Paired P (Alike T) n m (forStatement expr body) (forStatement expr' body') := by
  intro ts us hrel hn hm
  have hopening := abreast_expect (by simp) (hpasses .leftParen (by simp)) .parenAfterFor (Pairing.Within.refl hrel)
  refine hopening.bind fun _ _ vs ws hopened => ?_
  have hle₁ := hopened.2.le
  have hle₁' := hopened.2.le'
  have hinitial := (forInitial_paired hpasses hexpr).within hopened.2 (by omega) (by omega)
  refine hinitial.bind fun initial initial' vs ws hinitial => ?_
  have hle₂ := hinitial.2.le
  have hle₂' := hinitial.2.le'
  have hcondition := (forClause_paired hpasses hexpr (by simp : TokenKind.semicolon ≠ .endMark)
    .semicolonAfterLoopCondition).within hinitial.2 (by omega) (by omega)
  refine hcondition.bind fun condition condition' vs ws hcondition => ?_
  have hle₃ := hcondition.2.le
  have hle₃' := hcondition.2.le'
  have hstep := (forClause_paired hpasses hexpr (by simp : TokenKind.rightParen ≠ .endMark)
    .parenAfterForClauses).within hcondition.2 (by omega) (by omega)
  refine hstep.bind fun step step' vs ws hstep => ?_
  have hle₄ := hstep.2.le
  have hle₄' := hstep.2.le'
  refine (hbody.within hstep.2 (by omega) (by omega)).bind fun inner inner' rest rest' hinner => ?_
  exact abreast_pure ⟨.forLoop hinitial.1 hcondition.1 hstep.1 hinner.1, hinner.2⟩

theorem declarationOr_paired : Paired P (Alike T) n m (declarationOr expr body) (declarationOr expr' body') := by
  intro ts us hrel hn hm
  refine abreast_acceptAny_bind rfl ?_ hrel (hbody ts us hrel hn hm) ?_
  · intro kind hasked
    rw [of_decide_eq_true hasked]
    exact hpasses .kwVar (by simp)
  · rintro t vs u ws rfl rfl - - htail
    exact (declaration_paired hpasses hexpr).within (Pairing.Within.refl htail).cons (Nat.le_of_succ_le hn)
      (Nat.le_of_succ_le hm)

end Constructs

section Declarations

variable (hpasses : ∀ kind, kind ≠ .endMark → P.Passes kind)

include hpasses

/-- The loops over declarations go round together: each round goes past a token on both sides. -/
theorem declarations_paired {one one' : Parser Stmt} (hone : Paired P (Alike T) n m one one')
    (hbuilds : Builds one n Known) (hbuilds' : Builds one' m Known) (closes : TokenKind → Bool)
    (hcloses : closes .endMark = true) {k l : Nat} (hk : k ≤ n) (hl : l ≤ m) :
    Paired P (AllAlike T) k l (declarations closes one k) (declarations closes one' l) := by
  induction k generalizing l with
  | zero => exact paired_zero (.inl rfl)
  | succ k ih =>
    cases l with
    | zero => exact paired_zero (.inr rfl)
    | succ l =>
      intro ts us hrel hts hus
      refine abreast_peek_bind hrel ?_
      rintro t vs u ws rfl rfl htoken
      rw [T.kind_eq htoken]
      split
      · exact abreast_pure ⟨.nil, .refl hrel⟩
      · rename_i hopen
        have hkind : t.kind ≠ .endMark := fun hk => hopen (hk ▸ hcloses)
        have hkind' : u.kind ≠ .endMark := by rwa [T.kind_eq htoken]
        obtain ⟨hmarked, hmarked'⟩ := P.marked hrel
        have hhead := hone.recover hpasses _ _ hrel (Nat.le_trans hts hk) (Nat.le_trans hus hl)
        have hshort := (hbuilds _ hmarked (Nat.le_trans hts hk)).recover rfl hkind hmarked
        have hshort' := (hbuilds' _ hmarked' (Nat.le_trans hus hl)).recover rfl hkind' hmarked'
        refine (hhead.and hshort hshort').bind fun head head' mid mid' h => ?_
        obtain ⟨⟨hhead, hmid⟩, ⟨-, hlt⟩, -, hlt'⟩ := h
        have hrest := (ih (by omega) (by omega : l ≤ m)).within hmid (by omega) (by omega)
        refine hrest.bind fun tail tail' rest rest' htail => ?_
        exact abreast_pure ⟨(AllAlike.of_option hhead).append htail.1, htail.2⟩

theorem blockStatement_paired {body body' : Parser Stmt} (hexpr : Paired P (Expr.Alike T) n m expr expr')
    (hbody : Paired P (Alike T) n m body body') (hone : Builds (declarationOr expr body) n Known)
    (hone' : Builds (declarationOr expr' body') m Known) :
    Paired P (Alike T) n m (blockStatement n expr body) (blockStatement m expr' body') := by
  intro ts us hrel hn hm
  have hinner := declarations_paired hpasses (declarationOr_paired hpasses hexpr hbody) hone hone'
    closesBlock rfl (Nat.le_refl n) (Nat.le_refl m) ts us hrel hn hm
  refine hinner.bind fun inner inner' mid mid' hinner => ?_
  have hclosing := abreast_expect (by simp) (hpasses .rightBrace (by simp)) .braceAfterBlock hinner.2
  exact hclosing.bind fun _ _ rest rest' hrest => abreast_pure ⟨.block hinner.1, hrest.2⟩

/-- The statement parser is paired with itself. -/
theorem parser_paired (n m : Nat) : Paired P (Alike T) n m (parser n) (parser m) := by
  induction n generalizing m with
  | zero => exact paired_zero (.inl rfl)
  | succ n ih =>
    cases m with
    | zero => exact paired_zero (.inr rfl)
    | succ m =>
      intro ts us hrel hts hus
      have hexpr : Paired P (Expr.Alike T) (n + 1) (m + 1) _ _ := Expr.parser_paired (fun kind _ => hpasses kind) _ _
      have hinside := hexpr.mono (Nat.le_succ n) (Nat.le_succ m)
      have hone := declarationOr_builds ((Expr.parser_builds (n + 1)).mono (Nat.le_succ n)) (parser_builds n)
      have hone' := declarationOr_builds ((Expr.parser_builds (m + 1)).mono (Nat.le_succ m)) (parser_builds m)
      refine abreast_peek_bind hrel ?_
      rintro t vs u ws rfl rfl htoken
      rw [T.kind_eq htoken]
      -- every construct that starts with a word comes behind that word
      have hword : ∀ {p q : Parser Stmt}, t.kind ≠ .endMark → Paired P (Alike T) n m p q →
          Abreast T (fun a b rest rest' => Alike T a b ∧ P.Within (t :: vs) (u :: ws) rest rest')
            (P.Within (t :: vs) (u :: ws)) (do skip; p) (do skip; q) (t :: vs) (u :: ws) := by
        intro p q hkind hp
        have htail := P.tail hrel (hpasses _ hkind)
        exact abreast_skip_bind htoken hkind (hp.within (Pairing.Within.refl htail).cons
          (Nat.le_of_succ_le_succ hts) (Nat.le_of_succ_le_succ hus))
      split
      · rename_i hkind
        exact hword (by simp [hkind]) (forStatement_paired hpasses hinside (ih m))
      · rename_i hkind
        exact hword (by simp [hkind]) (conditional_paired hpasses hinside (ih m))
      · rename_i hkind
        exact hword (by simp [hkind]) (printStatement_paired hpasses hinside)
      · rename_i hkind
        exact hword (by simp [hkind]) (whileLoop_paired hpasses hinside (ih m))
      · rename_i hkind
        exact hword (by simp [hkind]) (blockStatement_paired hpasses hinside (ih m) hone hone')
      · exact expressionStatement_paired hpasses hexpr _ _ hrel hts hus

/-- The program parser is paired with itself. -/
theorem programParser_paired (n m : Nat) : Paired P (AllAlike T) n m (programParser n) (programParser m) := by
  have hone := declarationOr_paired hpasses (Expr.parser_paired (P := P) (fun kind _ => hpasses kind) n m)
    (parser_paired hpasses n m)
  exact declarations_paired hpasses hone (declarationOr_builds (Expr.parser_builds _) (parser_builds _))
    (declarationOr_builds (Expr.parser_builds _) (parser_builds _)) (· = .endMark) rfl (Nat.le_refl n) (Nat.le_refl m)

/-- Lists that belong together are parsed alike, whatever errors they have. -/
theorem parse_alike (hrel : P.Rel ts us) : (parse ts).Alike T (AllAlike T) (parse us) := by
  have hrun := (programParser_paired hpasses ts.length us.length).run_alike hrel (Nat.le_refl _) (Nat.le_refl _)
  refine ⟨?_, hrun.errors, hrun.fault_eq⟩
  have hresult := hrun.result
  simp only [parse]
  generalize (Parser.run _ ts).result = o at hresult ⊢
  generalize (Parser.run _ us).result = o' at hresult ⊢
  cases hresult with
  | none => exact .nil
  | some h => exact h

end Declarations

end Lox.Stmt
