import Mathlib.Data.List.TakeWhile
import Lox.Value

/-!
The text of a number never goes out of range. A layout cuts its digits only behind the first or
behind one that is there, and the shortest decimal of a positive magnitude has a digit, since zero
does not read back as the magnitude.
-/

namespace Lox

/-! ## Digits -/

namespace Binary64

theorem ratio_num_ne_zero {bits : Nat} (h : bits ≠ 0) : (ratio bits).num ≠ 0 := by
  have hpow : ∀ e : Int, Nat.pow 2 e.toNat ≠ 0 := fun e => Nat.ne_of_gt (Nat.pow_pos (by decide))
  unfold ratio
  split
  · exact Nat.mul_ne_zero h (hpow _)
  · exact Nat.mul_ne_zero (by simp [hiddenBit]) (hpow _)

end Binary64

namespace Decimal

theorem coefficient_ne_zero_of_readsAs {d : Decimal} {bits : Nat} (h : bits ≠ 0) (hd : d.ReadsAs bits) :
    d.coefficient ≠ 0 := by
  intro hzero
  have hratio : d.ratio.num = 0 := by simp [ratio, Ratio.scale, hzero]
  have hnearest : Binary64.nearest d.ratio = 0 := if_pos hratio
  exact h (hd.symm.trans hnearest)

/-- The shortest decimal of a positive magnitude is not zero: a candidate reads back, and the exact
decimal is positive. -/
theorem shortest_coefficient_ne_zero {bits : Nat} (h : bits ≠ 0) : (shortest bits).coefficient ≠ 0 := by
  unfold shortest
  dsimp only
  generalize hfound : List.find? _ _ = found
  cases found with
  | none =>
    have hfive : Nat.pow 5 (Binary64.ratio bits).den.log2 ≠ 0 := Nat.ne_of_gt (Nat.pow_pos (by decide))
    exact Nat.mul_ne_zero (Binary64.ratio_num_ne_zero h) hfive
  | some d => exact coefficient_ne_zero_of_readsAs h (by simpa using List.find?_some hfound)

/-- A decimal that is not zero has digits: not all of those of its coefficient are zeros. -/
theorem scientific_digits_ne_nil {d : Decimal} (h : d.coefficient ≠ 0) : d.scientific.digits ≠ [] := by
  intro hnil
  have hdrop : (Nat.toDigits 10 d.coefficient).reverse.dropWhile (· = '0') = [] :=
    List.reverse_eq_nil_iff.1 hnil
  have hzeros : ∀ c ∈ Nat.toDigits 10 d.coefficient, c = '0' := by
    intro c hc
    simpa using List.dropWhile_eq_nil_iff.1 hdrop c (List.mem_reverse.2 hc)
  have hvalue : Nat.ofDigitChars 10 (Nat.toDigits 10 d.coefficient) 0 = 0 := by
    rw [List.eq_replicate_of_mem hzeros, Nat.ofDigitChars_replicate_zero, Nat.mul_zero]
  exact h (Nat.ofDigitChars_ten_toDigits.symm.trans hvalue)

end Decimal

/-! ## Layouts -/

namespace Number

/-- Digits are laid out without going out of range, if there are any. -/
theorem layout_ok {s : Scientific} (h : s.digits ≠ []) : ∃ text, layout s = .ok text := by
  have hlength : 0 < s.digits.length := List.length_pos_iff.2 h
  unfold layout
  dsimp only
  split
  · rename_i hwhole
    rw [Range.copies_of_nonneg (by omega)]
    exact ⟨_, rfl⟩
  split
  · rename_i hwhole hpoint
    rw [Range.splitAt_of_le (by omega)]
    exact ⟨_, rfl⟩
  split
  · rename_i hzeros
    rw [Range.copies_of_nonneg (by omega)]
    exact ⟨_, rfl⟩
  · rw [Range.splitAt_of_le hlength]
    exact ⟨_, rfl⟩

theorem formatMagnitude_ok (bits : Nat) : ∃ text, formatMagnitude bits = .ok text := by
  unfold formatMagnitude
  split
  · exact ⟨_, rfl⟩
  split
  · rename_i hpositive _
    obtain ⟨text, htext⟩ :=
      layout_ok (Decimal.scientific_digits_ne_nil (Decimal.shortest_coefficient_ne_zero hpositive))
    rw [htext]
    exact ⟨_, rfl⟩
  split <;> exact ⟨_, rfl⟩

theorem format_ok (x : Float) : ∃ text, format x = .ok text := by
  obtain ⟨text, htext⟩ := formatMagnitude_ok (Binary64.magnitude x)
  unfold format
  dsimp only
  rw [htext]
  exact ⟨_, rfl⟩

end Number

/-- Every value has a text. -/
theorem Value.format_ok (v : Value) : ∃ text, v.format = .ok text := by
  cases v with
  | nil => exact ⟨_, rfl⟩
  | boolean b => cases b <;> exact ⟨_, rfl⟩
  | number x => exact Number.format_ok x
  | string s => exact ⟨_, rfl⟩

end Lox
