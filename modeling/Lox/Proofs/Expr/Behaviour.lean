import Lox.Expr.Parse
import Lox.Proofs.Eval.Safety
import Lox.Proofs.Parser.Behaviour

/-!
The expression parser on any tokens with an end mark: it does not fault, goes past no end mark, and
every tree it builds is known, also where it complained on the way.
-/

namespace Lox

open Lox.Parser

/-- The node of an operator between known operands is known. -/
theorem Level.node_known {level : Level} {operator : Token}
    (h : Level.of? operator.kind = some level) {left right : Expr} (hleft : left.Known)
    (hright : right.Known) : (level.node left operator right).Known := by
  generalize hkind : operator.kind = kind at h
  cases kind <;> cases h <;> exact ⟨by simp [hkind, binaryOperators], hleft, hright⟩

namespace Expr

variable {n : Nat}

theorem primary_builds {inside : Parser Expr} (h : Builds inside n Known) :
    Builds (primary inside) (n + 1) Known := by
  intro ts hts hlength
  obtain ⟨t, us, rfl⟩ := hts.exists_cons
  refine behaves_peek_bind ?_
  split
  · rename_i value hvalue
    have hkind : t.kind ≠ .endMark := fun hk => by simp [Token.constant?, hk] at hvalue
    exact behaves_skip_bind hkind (behaves_pure ⟨trivial, by simp⟩)
  · split
    · rename_i hkind
      exact behaves_skip_bind (by simp [hkind]) (behaves_pure ⟨trivial, by simp⟩)
    · rename_i hname
      have hkind : t.kind ≠ .endMark := by simp [hname]
      have hus := hts.tail hkind
      refine behaves_skip_bind hkind ?_
      refine (h us hus (by simpa using hlength)).bind fun inner after hafter hinner => ?_
      have hclose := behaves_expect (hafter.marked hus) (by simp : TokenKind.rightParen ≠ .endMark)
        .parenAfterExpression
      refine hclose.bind fun _ rest hrest _ => behaves_pure ⟨hinner.1, ?_⟩
      exact Nat.lt_succ_of_le (hafter.trans hrest).length_le
    · exact behaves_fail hts .expression

theorem prefixed_builds {operand : Parser Expr} (h : Builds operand n Known) (m : Nat) (hm : n ≤ m) :
    Builds (prefixed operand m) n Known := by
  induction m generalizing n with
  | zero =>
    obtain rfl := Nat.le_zero.1 hm
    exact builds_zero
  | succ m ih =>
    intro ts hts hlength
    obtain ⟨t, us, rfl⟩ := hts.exists_cons
    refine behaves_acceptAny_bind rfl (h _ hts hlength) fun hasked hkind => ?_
    simp only [List.length_cons] at hlength
    have hmore := ih (h.mono (by omega : us.length ≤ n)) (by omega) us (hts.tail hkind) (Nat.le_refl _)
    refine hmore.bind fun e rest hrest he =>
      behaves_pure ⟨⟨?_, he.1⟩, Nat.lt_succ_of_le hrest.length_le⟩
    revert hasked
    cases t.kind <;> simp [isPrefixOperator]

/-- The loop over the operators of a level keeps the tree to the left of it known. -/
theorem chainTail_behaves {level : Level} {operand : Parser Expr} (h : Builds operand n Known)
    (m : Nat) {left : Expr} (hleft : left.Known) {ts : List Token} (hts : Marked ts)
    (hn : ts.length ≤ n) (hm : ts.length ≤ m) :
    Behaves (chainTail level operand m left) ts fun e _ => e.Known := by
  induction m generalizing ts left with
  | zero => exact absurd hts.length_pos (by omega)
  | succ m ih =>
    obtain ⟨t, us, rfl⟩ := hts.exists_cons
    refine behaves_acceptAny_bind (by simp [Level.of?]) (behaves_pure hleft) fun hasked hkind => ?_
    have hlevel : Level.of? t.kind = some level := by simpa using hasked
    have hus := hts.tail hkind
    simp only [List.length_cons] at hn hm
    refine (h us hus (by omega)).bind fun right rest hrest hright => ?_
    have hlength := hrest.length_le
    exact ih (Level.node_known hlevel hleft hright.1) (hrest.marked hus) (by omega) (by omega)

theorem chain_builds {level : Level} {operand : Parser Expr} (h : Builds operand n Known) :
    Builds (chain n level operand) n Known := by
  intro ts hts hlength
  refine (h ts hts hlength).bind fun left mid hmid hleft => ?_
  have hmidLength := Nat.le_trans hmid.length_le hlength
  have htail : Behaves (chainTail level operand n left) mid fun e _ => e.Known :=
    chainTail_behaves h n hleft.1 (hmid.marked hts) hmidLength hmidLength
  refine htail.mono fun e rest hrest he => ⟨he, ?_⟩
  exact Nat.lt_of_le_of_lt hrest.length_le hleft.2

theorem climb_builds (levels : List Level) {operand : Parser Expr} (h : Builds operand n Known) :
    Builds (climb n levels operand) n Known := by
  induction levels with
  | nil => exact h
  | cons level levels ih => exact chain_builds ih

theorem assignment_builds {value target : Parser Expr} (hvalue : Builds value n Known)
    (htarget : Builds target (n + 1) Known) : Builds (assignment value target) (n + 1) Known := by
  intro ts hts hlength
  refine (htarget ts hts hlength).bind fun left mid hmid hleft => ?_
  have hmarked := hmid.marked hts
  obtain ⟨t, us, rfl⟩ := hmarked.exists_cons
  refine behaves_acceptAny_bind rfl (behaves_pure hleft) fun _ hkind => ?_
  have hshort : us.length < ts.length := Nat.lt_of_succ_le (Nat.le_of_lt hleft.2)
  refine (hvalue us (hmarked.tail hkind) (by omega)).bind fun right rest hrest hright => ?_
  have hrestLength := hrest.length_le
  split
  · exact behaves_pure ⟨hright.1, by omega⟩
  · -- the target is no name: the value stands for the whole
    have hcomplain : Behaves (complain .assignmentTarget t) rest fun _ rest' => rest' = rest :=
      behaves_complain rfl
    refine hcomplain.bind fun _ rest' _ hrest' => behaves_pure ⟨hright.1, ?_⟩
    rw [hrest']
    omega

/-- On at most `n` tokens the expression parser builds known trees. -/
theorem parser_builds (n : Nat) : Builds (parser n) n Known := by
  induction n with
  | zero => exact builds_zero
  | succ n ih =>
    have hprefixed := prefixed_builds (primary_builds ih) (n + 1) (Nat.le_refl _)
    exact assignment_builds ih (climb_builds Level.ladder hprefixed)

/-- Parsing tokens with an end mark as an expression does not fault, and gives a known tree if any. -/
theorem parse_safe {tokens : List Token} (h : Marked tokens) :
    (parse tokens).fault = none ∧ ∀ e, (parse tokens).result = some e → e.Known := by
  have hwhole : Behaves (wholeParser tokens.length) tokens fun e _ => e.Known := by
    refine (parser_builds _ tokens h (Nat.le_refl _)).bind fun e mid hmid he => ?_
    have hmarked := hmid.marked h
    obtain ⟨t, us, rfl⟩ := hmarked.exists_cons
    refine behaves_peek_bind ?_
    split
    · exact behaves_pure he.1
    · exact behaves_fail hmarked .endOfExpression
  obtain ⟨hfault, hresult⟩ := hwhole.run
  refine ⟨hfault, fun e he => ?_⟩
  obtain ⟨_, hknown⟩ := hresult e he
  exact hknown

end Expr

end Lox
