import Lox.Expr.Parse
import Lox.Proofs.Parser.Pairing

/-!
The expression parser on two lists that belong together: it builds trees that are alike, or gives up
on both, and complains about tokens that are alike. No semicolon is gone past, so that a pairing need
not go on behind one.
-/

namespace Lox

open Lox.Parser

theorem Token.constant?_eq {T : Likeness} {t u : Token} (h : T.Rel t u) : u.constant? = t.constant? := by
  unfold Token.constant?
  rw [T.kind_eq h, T.literal_eq h]

theorem Token.kind_of_constant? {t : Token} {value : Value} (h : t.constant? = some value) :
    t.kind ≠ .semicolon ∧ t.kind ≠ .endMark := by
  constructor
  · intro hkind
    simp [Token.constant?, hkind] at h
  · intro hkind
    simp [Token.constant?, hkind] at h

namespace Expr

section Constructs

variable {T : Likeness} {P : Pairing T} (hpasses : ∀ kind, kind ≠ .semicolon → kind ≠ .endMark → P.Passes kind)
  {n m : Nat} {p q : Parser Expr}

include hpasses

theorem primary_paired (h : Paired P (Alike T) n m p q) :
    Paired P (Alike T) (n + 1) (m + 1) (primary p) (primary q) := by
  intro ts us hrel hn hm
  refine abreast_peek_bind hrel ?_
  rintro t ts u us rfl rfl htoken
  rw [Token.constant?_eq htoken, T.kind_eq htoken]
  simp only [List.length_cons] at hn hm
  cases hconstant : t.constant? with
  | some value =>
    obtain ⟨hsemicolon, hmark⟩ := Token.kind_of_constant? hconstant
    have htail := P.tail hrel (hpasses _ hsemicolon hmark)
    exact abreast_skip_bind htoken hmark (abreast_pure ⟨.literal value, (Pairing.Within.refl htail).cons⟩)
  | none =>
    dsimp only
    split
    · rename_i hname
      have htail := P.tail hrel (hpasses _ (by simp [hname]) (by simp [hname]))
      exact abreast_skip_bind htoken (by simp [hname])
        (abreast_pure ⟨.reference htoken, (Pairing.Within.refl htail).cons⟩)
    · rename_i hparen
      have htail := P.tail hrel (hpasses _ (by simp [hparen]) (by simp [hparen]))
      refine abreast_skip_bind htoken (by simp [hparen]) ?_
      refine (h.within (Pairing.Within.refl htail).cons (by omega) (by omega)).bind fun e e' mid mid' he => ?_
      have hclosing := abreast_expect (by simp) (hpasses .rightParen (by simp) (by simp)) .parenAfterExpression he.2
      refine hclosing.bind fun _ _ rest rest' hrest => ?_
      exact abreast_pure ⟨.group he.1, hrest.2⟩
    · exact abreast_fail hrel (.refl hrel) .expression

theorem prefixed_paired (h : Paired P (Alike T) n m p q) {k l : Nat} (hk : k ≤ n) (hl : l ≤ m) :
    Paired P (Alike T) k l (prefixed p k) (prefixed q l) := by
  induction k generalizing l with
  | zero => exact paired_zero (.inl rfl)
  | succ k ih =>
    cases l with
    | zero => exact paired_zero (.inr rfl)
    | succ l =>
      intro ts us hrel hts hus
      refine abreast_acceptAny_bind rfl ?_ hrel (h ts us hrel (by omega) (by omega)) ?_
      · intro kind hasked
        refine hpasses kind ?_ ?_ <;> rintro rfl <;> cases hasked
      · rintro operator ts operator' us rfl rfl htoken - htail
        simp only [List.length_cons] at hts hus
        have hoperand := ih (by omega) (by omega : l ≤ m)
        refine (hoperand.within (Pairing.Within.refl htail).cons (by omega) (by omega)).bind fun e e' rest rest' he => ?_
        exact abreast_pure ⟨.unary htoken he.1, he.2⟩

omit hpasses in
/-- Nodes of a level are alike if their parts are. -/
theorem Alike.node (level : Level) {left left' right right' : Expr} {operator operator' : Token}
    (hleft : Alike T left left') (hoperator : T.Rel operator operator') (hright : Alike T right right') :
    Alike T (level.node left operator right) (level.node left' operator' right') := by
  cases level with
  | or | and => exact .logical hleft hoperator hright
  | equality | comparison | additive | multiplicative => exact .binary hleft hoperator hright

theorem chainTail_paired (level : Level) (h : Paired P (Alike T) n m p q) {k l : Nat} (hk : k ≤ n) (hl : l ≤ m)
    {left left' : Expr} (hleft : Alike T left left') :
    Paired P (Alike T) k l (chainTail level p k left) (chainTail level q l left') := by
  induction k generalizing l left left' with
  | zero => exact paired_zero (.inl rfl)
  | succ k ih =>
    cases l with
    | zero => exact paired_zero (.inr rfl)
    | succ l =>
      intro ts us hrel hts hus
      refine abreast_acceptAny_bind (by simp [Level.of?]) ?_ hrel (abreast_pure ⟨hleft, .refl hrel⟩) ?_
      · intro kind hasked
        refine hpasses kind ?_ ?_ <;> rintro rfl <;> simp [Level.of?] at hasked
      · rintro operator ts operator' us rfl rfl htoken - htail
        simp only [List.length_cons] at hts hus
        have hright : Abreast T (fun a b rest rest' => Alike T a b ∧ P.Within ts us rest rest') (P.Within ts us)
            (p >>= fun right => chainTail level p k (level.node left operator right))
            (q >>= fun right => chainTail level q l (level.node left' operator' right)) ts us := by
          refine (h ts us htail (by omega) (by omega)).bind fun right right' mid mid' hright => ?_
          obtain ⟨hright, hmid⟩ := hright
          have hle := hmid.le
          have hle' := hmid.le'
          have hmore := ih (by omega) (by omega : l ≤ m) (.node level hleft htoken hright)
          exact hmore.within hmid (by omega) (by omega)
        exact hright.mono (fun _ _ _ _ hrest => ⟨hrest.1, hrest.2.cons⟩) fun _ _ hrest => hrest.cons

theorem chain_paired (level : Level) (h : Paired P (Alike T) n m p q) :
    Paired P (Alike T) n m (chain n level p) (chain m level q) := by
  intro ts us hrel hts hus
  refine (h ts us hrel hts hus).bind fun left left' mid mid' hleft => ?_
  have hmore := chainTail_paired hpasses level h (Nat.le_refl n) (Nat.le_refl m) hleft.1
  exact hmore.within hleft.2 (Nat.le_trans hleft.2.le hts) (Nat.le_trans hleft.2.le' hus)

theorem climb_paired (levels : List Level) (h : Paired P (Alike T) n m p q) :
    Paired P (Alike T) n m (climb n levels p) (climb m levels q) := by
  induction levels with
  | nil => exact h
  | cons level levels ih => exact chain_paired hpasses level ih

theorem assignment_paired {target target' : Parser Expr} (h : Paired P (Alike T) n m p q)
    (htarget : Paired P (Alike T) (n + 1) (m + 1) target target') :
    Paired P (Alike T) (n + 1) (m + 1) (assignment p target) (assignment q target') := by
  intro ts us hrel hts hus
  refine (htarget ts us hrel hts hus).bind fun left left' mid mid' hleft => ?_
  obtain ⟨hleft, hmid⟩ := hleft
  refine abreast_acceptAny_bind rfl ?_ hmid.rel (abreast_pure ⟨hleft, hmid⟩) ?_
  · intro kind hasked
    rw [of_decide_eq_true hasked]
    exact hpasses .equal (by simp) (by simp)
  · rintro sign vs sign' ws rfl rfl htoken - htail
    have hle := hmid.le
    have hle' := hmid.le'
    simp only [List.length_cons] at hle hle'
    have hrest : P.Within ts us vs ws := ⟨htail, by omega, by omega⟩
    refine (h.within hrest (by omega) (by omega)).bind fun right right' rest rest' hright => ?_
    have hcomplain : Abreast T (fun a b rest rest' => Alike T a b ∧ P.Within ts us rest rest') (P.Within ts us)
        (do complain .assignmentTarget sign; pure right) (do complain .assignmentTarget sign'; pure right') rest rest' :=
      (abreast_complain htoken .assignmentTarget hright).bind fun _ _ _ _ h => abreast_pure h
    cases hleft with
    | reference hname => exact abreast_pure ⟨.assign hname hright.1, hright.2⟩
    | literal | assign | unary | binary | logical | group => exact hcomplain

/-- The expression parser is paired with itself. -/
theorem parser_paired (n m : Nat) : Paired P (Alike T) n m (parser n) (parser m) := by
  induction n generalizing m with
  | zero => exact paired_zero (.inl rfl)
  | succ n ih =>
    cases m with
    | zero => exact paired_zero (.inr rfl)
    | succ m =>
      have hprimary := primary_paired hpasses (ih m)
      have hprefixed := prefixed_paired hpasses hprimary (Nat.le_refl _) (Nat.le_refl _)
      exact assignment_paired hpasses (ih m) (climb_paired hpasses Level.ladder hprefixed)

theorem wholeParser_paired (n m : Nat) : Paired P (Alike T) n m (wholeParser n) (wholeParser m) := by
  intro ts us hrel hts hus
  have hparser := parser_paired hpasses n m ts us hrel hts hus
  refine hparser.bind fun e e' mid mid' he => abreast_peek_bind he.2.rel ?_
  rintro t vs u ws rfl rfl htoken
  rw [T.kind_eq htoken]
  split
  · exact abreast_pure he
  · exact abreast_fail he.2.rel he.2 .endOfExpression

end Constructs

end Expr

end Lox
