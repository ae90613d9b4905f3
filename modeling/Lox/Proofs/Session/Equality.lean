import Lox.Proofs.Number.Denoted
import Lox.Proofs.Number.Pattern
import Lox.Proofs.Session.NumberText

/-!
Equality and printed text.

Numbers are equal just if they are read back as one (`beq_iff_readBack_eq`), and so are their texts
(`display_number_eq_iff`): a text has a minus sign just if its number is signed, and behind it stands that of the magnitude.
Equal values of any type are printed alike and count as the same in conditions.
-/

namespace Lox

open Binary64

/-! ## Numbers -/

variable {x y : Float}

theorem readBack_eq_of_beq (h : (x == y) = true) : readBack x = readBack y := by
  rcases (Float.beq_iff_ne_nan_and_eq.1 h).2.2 with rfl | ⟨rfl, rfl⟩ | ⟨rfl, rfl⟩
  · rfl
  · decide +kernel
  · decide +kernel

/-- Numbers are equal just if they are the same, but for the sign of a zero. -/
theorem beq_iff_readBack_eq (hx : magnitude x ≤ infinity) (hy : magnitude y ≤ infinity) :
    (x == y) = true ↔ readBack x = readBack y := by
  refine ⟨readBack_eq_of_beq, fun h => ?_⟩
  have hy := readBack_beq hy
  rw [← h] at hy
  exact BEq.trans (BEq.symm (readBack_beq hx)) hy

/-- A number is printed as what is read back of it. -/
theorem display_readBack (x : Float) : (Value.number (readBack x)).display = (Value.number x).display := by
  by_cases hbits : x.toBits = 0x8000000000000000
  · have hx : x = -0 := Float.toBits_inj.1 (hbits.trans (by decide +kernel))
    rw [hx]
    decide +kernel
  · rw [readBack, if_neg hbits]

/-- The text of a number starts with a minus sign just if the number is signed. -/
theorem head?_display_iff (hx : magnitude x ≤ infinity) : (Value.number x).display.toList.head? = some '-' ↔ Signed x := by
  obtain ⟨c, cs, htext, hc, -⟩ := Number.formatMagnitude_first hx
  obtain ⟨hminus, hbare⟩ := display_number htext hx
  by_cases hsigned : Signed x
  · rw [hminus hsigned, String.toList_append]
    exact iff_of_true rfl hsigned
  · rw [hbare hsigned, String.toList_ofList, List.head?_cons]
    exact iff_of_false (fun heq => hc (Option.some.inj heq)) hsigned

theorem signed_iff_of_display_eq (hx : magnitude x ≤ infinity) (hy : magnitude y ≤ infinity)
    (h : (Value.number x).display = (Value.number y).display) : Signed x ↔ Signed y := by
  rw [← head?_display_iff hx, ← head?_display_iff hy, h]

/-- Numbers that are printed alike have one magnitude. -/
theorem magnitude_eq_of_display_eq (hx : magnitude x ≤ infinity) (hy : magnitude y ≤ infinity)
    (h : (Value.number x).display = (Value.number y).display) : magnitude x = magnitude y := by
  obtain ⟨c, cs, htext, -⟩ := Number.formatMagnitude_first hx
  obtain ⟨c', cs', htext', -⟩ := Number.formatMagnitude_first hy
  obtain ⟨hminus, hbare⟩ := display_number htext hx
  obtain ⟨hminus', hbare'⟩ := display_number htext' hy
  have hsigned := signed_iff_of_display_eq hx hy h
  refine Number.formatMagnitude_inj hx hy ?_
  rw [htext, htext']
  by_cases hs : Signed x
  · rw [hminus hs, hminus' (hsigned.1 hs)] at h
    exact congrArg Except.ok (String.append_right_inj _ |>.1 h)
  · rw [hbare hs, hbare' (mt hsigned.2 hs)] at h
    exact congrArg Except.ok h

/-- Numbers are printed alike just if they are read back as one. -/
theorem display_number_eq_iff (hx : magnitude x ≤ infinity) (hy : magnitude y ≤ infinity) :
    (Value.number x).display = (Value.number y).display ↔ readBack x = readBack y := by
  constructor
  · intro h
    have hsigned := signed_iff_of_display_eq hx hy h
    have hmagnitude := magnitude_eq_of_display_eq hx hy h
    by_cases hs : Signed x
    · have hs' := hsigned.1 hs
      rw [readBack_of_ne_zero hs.2, readBack_of_ne_zero hs'.2, ← neg_ofMagnitude_of_negative hs.1 hx,
        ← neg_ofMagnitude_of_negative hs'.1 hy, hmagnitude]
    · rw [← ofMagnitude_of_not_signed hs, ← ofMagnitude_of_not_signed (mt hsigned.2 hs), hmagnitude]
  · intro h
    rw [← display_readBack x, ← display_readBack y, h]

/-! ## Values -/

/-- Equal values are printed alike, and count as the same in conditions. -/
theorem Value.indistinct_of_equals {v w : Value} (h : v.equals w = true) : v.display = w.display ∧ v.truthy = w.truthy := by
  fun_cases Value.equals v w with
  | case1 => exact ⟨rfl, rfl⟩
  | case2 a b =>
    obtain rfl : a = b := by simpa [Value.equals] using h
    exact ⟨rfl, rfl⟩
  | case3 x y =>
    have hread : readBack x = readBack y := readBack_eq_of_beq h
    exact ⟨by rw [← display_readBack x, ← display_readBack y, hread], rfl⟩
  | case4 s t =>
    obtain rfl : s = t := by simpa [Value.equals] using h
    exact ⟨rfl, rfl⟩
  | case5 => simp_all [Value.equals]

/-- Two literals with the operator of equality between them evaluate to whether they are equal. -/
theorem evaluateTree_equal {operator : Token} (h : operator.kind = .equalEqual) (v w : Value) (env : Env) :
    evaluateTree (.binary (.literal v) operator (.literal w)) env = ⟨.ok (.boolean (v.equals w)), env, #[], .empty⟩ := by
  have happly : applyBinary operator v w = .ok (.boolean (v.equals w)) := by
    rw [applyBinary, h]
    rfl
  have heval : (Expr.binary (.literal v) operator (.literal w)).eval ⟨env, #[]⟩ =
      Eval.ofExcept (applyBinary operator v w) ⟨env, #[]⟩ := rfl
  rw [evaluateTree, Run.ofEval, heval, happly]
  rfl

/-- **Equality agrees with what is printed.** In every environment two literals are compared without an effect. Two numbers,
neither of which is not a number, are equal just if they have the same text. Two values of any types are equal only if they
have the same text and count as the same in conditions. -/
theorem equality_agrees_with_display {operator : Token} (h : operator.kind = .equalEqual) (env : Env) :
    (∀ v w : Value, evaluateTree (.binary (.literal v) operator (.literal w)) env =
      ⟨.ok (.boolean (v.equals w)), env, #[], .empty⟩) ∧
    (∀ x y : Float, x.isNaN = false → y.isNaN = false →
      ((Value.number x).equals (.number y) = true ↔ (Value.number x).display = (Value.number y).display)) ∧
    ∀ v w : Value, v.equals w = true → v.display = w.display ∧ v.truthy = w.truthy := by
  refine ⟨fun v w => evaluateTree_equal h v w env, fun x y hx hy => ?_, fun v w => Value.indistinct_of_equals⟩
  have hx := magnitude_le_of_isNaN hx
  have hy := magnitude_le_of_isNaN hy
  calc (Value.number x).equals (.number y) = true
      ↔ readBack x = readBack y := beq_iff_readBack_eq hx hy
    _ ↔ (Value.number x).display = (Value.number y).display := (display_number_eq_iff hx hy).symm

/-- The two zeros are equal; infinity and the greatest finite number are not. -/
theorem equality_agrees_with_display_zeros :
    let operator : Token := ⟨.equalEqual, "==", none, 1⟩
    let greatest : Float := Float.ofBits 0x7FEFFFFFFFFFFFFF
    let infinite : Float := Float.ofBits 0x7FF0000000000000
    operator.kind = .equalEqual ∧ (0 : Float).isNaN = false ∧ (-0 : Float).isNaN = false ∧
    (Value.number 0).display = (Value.number (-0)).display ∧
    evaluateTree (.binary (.literal (.number 0)) operator (.literal (.number (-0)))) .initial =
      ⟨.ok (.boolean true), .initial, #[], .empty⟩ ∧
    (Value.number 0).truthy = (Value.number (-0)).truthy ∧
    greatest.isNaN = false ∧ infinite.isNaN = false ∧
    (Value.number greatest).equals (.number infinite) = false ∧
    (Value.number greatest).display ≠ (Value.number infinite).display := by
  intro operator greatest infinite
  obtain ⟨hrun, hnumbers, hvalues⟩ := @equality_agrees_with_display operator rfl .initial
  have hzero : (0 : Float).isNaN = false := by decide +kernel
  have hzero' : (-0 : Float).isNaN = false := by decide +kernel
  have hgreatest : greatest.isNaN = false := by decide +kernel
  have hinfinite : infinite.isNaN = false := by decide +kernel
  have htext : (Value.number 0).display = (Value.number (-0)).display := by decide +kernel
  have hequal := (hnumbers 0 (-0) hzero hzero').2 htext
  have hrun := hrun (.number 0) (.number (-0))
  rw [hequal] at hrun
  have hdiffer : (Value.number greatest).equals (.number infinite) = false := by decide +kernel
  refine ⟨rfl, hzero, hzero', htext, hrun, (hvalues _ _ hequal).2, hgreatest, hinfinite, hdiffer, fun heq => ?_⟩
  rw [(hnumbers _ _ hgreatest hinfinite).2 heq] at hdiffer
  cases hdiffer

end Lox
