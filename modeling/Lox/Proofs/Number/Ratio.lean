import Mathlib.Algebra.Order.Field.Power
import Mathlib.Algebra.Order.Ring.Rat
import Mathlib.Tactic.FieldSimp
import Mathlib.Tactic.Linarith
import Mathlib.Tactic.Positivity
import Mathlib.Tactic.Ring
import Lox.Number.Ratio

/-!
The rational numbers that fractions stand for.

* `Ratio.value r`: the numerator over the denominator.
* `Ratio.NearestEven x n`: the natural number nearest to `x` is `n`, where of two that are equally near it is the even
  one.

Scaling, floor, rounding and logarithm of a fraction are read off its value, so none of them depends on the
representative. Rounding is monotone (`NearestEven.mono`).
-/

namespace Lox.Ratio

variable {r : Ratio}

/-- the rational number a fraction stands for -/
def value (r : Ratio) : ℚ := r.num / r.den

theorem value_pos (hnum : r.num ≠ 0) (hden : 0 < r.den) : 0 < r.value := by
  have hnum : 0 < r.num := Nat.pos_of_ne_zero hnum
  unfold value
  positivity

theorem value_eq_zero_iff (hden : 0 < r.den) : r.value = 0 ↔ r.num = 0 := by
  have hden : (r.den : ℚ) ≠ 0 := Nat.cast_ne_zero.2 hden.ne'
  rw [value, div_eq_zero_iff, or_iff_left hden, Nat.cast_eq_zero]

/-! ## Scaling -/

theorem cast_pow (b n : Nat) : ((Nat.pow b n : Nat) : ℚ) = (b : ℚ) ^ n := Nat.cast_pow b n

theorem scale_den_pos {b : Nat} (hb : 0 < b) (e : Int) (h : 0 < r.den) : 0 < (r.scale b e).den :=
  Nat.mul_pos h (Nat.pow_pos hb)

/-- A power is that of the positive part of its exponent, over that of the negative part. -/
theorem zpow_eq_div {b : Nat} (hb : 0 < b) (e : Int) : (b : ℚ) ^ e = (b : ℚ) ^ e.toNat / (b : ℚ) ^ (-e).toNat := by
  have hb : (b : ℚ) ≠ 0 := Nat.cast_ne_zero.2 hb.ne'
  rw [← zpow_natCast, ← zpow_natCast, ← zpow_sub₀ hb]
  congr 1
  omega

theorem value_scale {b : Nat} (hb : 0 < b) (e : Int) (r : Ratio) : (r.scale b e).value = r.value * (b : ℚ) ^ e := by
  rw [zpow_eq_div hb]
  simp only [value, scale, Nat.cast_mul, cast_pow]
  rw [mul_div_mul_comm]

/-! ## Floor and rounding -/

theorem le_floor_iff (h : 0 < r.den) {n : Nat} : n ≤ r.floor ↔ (n : ℚ) ≤ r.value := by
  have hden : (0 : ℚ) < r.den := Nat.cast_pos.2 h
  rw [floor, value, Nat.le_div_iff_mul_le h, le_div_iff₀ hden]
  exact_mod_cast Iff.rfl

/-- The natural number nearest to a rational one; if two are equally near, the even one of them. -/
structure NearestEven (x : ℚ) (n : Nat) : Prop where
  low : 2 * (n : ℚ) ≤ 2 * x + 1
  high : 2 * x ≤ 2 * n + 1
  tie : 2 * (n : ℚ) = 2 * x + 1 ∨ 2 * x = 2 * n + 1 → n % 2 = 0

theorem NearestEven.mono {x y : ℚ} {m n : Nat} (hx : NearestEven x m) (hy : NearestEven y n) (h : x ≤ y) : m ≤ n := by
  have hlow := hx.low
  have hhigh := hy.high
  by_contra hlt
  have hle : (n : ℚ) + 1 ≤ m := by exact_mod_cast not_le.1 hlt
  -- both lie half way between the two numbers, which are then neighbours and cannot both be even
  have hm := hx.tie (.inl (by linarith))
  have hn := hy.tie (.inr (by linarith))
  have hnext : m = n + 1 := by exact_mod_cast (by linarith : (m : ℚ) = n + 1)
  omega

theorem nearestEven_natCast (n : Nat) : NearestEven n n where
  low := by linarith
  high := by linarith
  tie h := by
    have : False := by rcases h with h | h <;> linarith
    exact this.elim

theorem value_eq_floor_add (h : 0 < r.den) : r.value = r.floor + (r.num % r.den : Nat) / r.den := by
  have hden : (r.den : ℚ) ≠ 0 := Nat.cast_ne_zero.2 h.ne'
  have hnum : ((r.den * (r.num / r.den) + r.num % r.den : Nat) : ℚ) = r.num := by rw [Nat.div_add_mod]
  rw [value, floor, ← hnum]
  push_cast
  field_simp

theorem round_nearestEven (h : 0 < r.den) : NearestEven r.value r.round := by
  have hden : (0 : ℚ) < r.den := Nat.cast_pos.2 h
  have hvalue := value_eq_floor_add h
  generalize hpart : ((r.num % r.den : Nat) : ℚ) / r.den = part at hvalue
  have hnonneg : 0 ≤ part := by rw [← hpart]; positivity
  have hlt : part < 1 := by
    rw [← hpart, div_lt_one hden]
    exact_mod_cast Nat.mod_lt _ h
  have hbelow : r.BelowHalf ↔ 2 * part < 1 := by
    rw [← hpart, ← mul_div_assoc, div_lt_one hden, BelowHalf]
    exact_mod_cast Iff.rfl
  have hat : r.AtHalf ↔ 2 * part = 1 := by
    rw [← hpart, ← mul_div_assoc, div_eq_one_iff_eq hden.ne', AtHalf]
    exact_mod_cast Iff.rfl
  unfold round
  split
  · rename_i hdown
    rw [hbelow, hat] at hdown
    refine ⟨by linarith, ?_, ?_⟩
    · rcases hdown with hbelow | ⟨hat, -⟩ <;> linarith
    · rcases hdown with hbelow | ⟨-, heven⟩
      · rintro (heq | heq) <;> linarith
      · exact fun _ => heven
  · rename_i hup
    rw [hbelow, hat] at hup
    have hhalf : 1 ≤ 2 * part := not_lt.1 fun hbelow => hup (.inl hbelow)
    have hnext : ((r.floor + 1 : Nat) : ℚ) = r.floor + 1 := Nat.cast_succ _
    refine ⟨by linarith, by linarith, ?_⟩
    rintro (heq | heq)
    · have hodd : ¬ r.floor % 2 = 0 := fun heven => hup (.inr ⟨by linarith, heven⟩)
      omega
    · linarith

theorem round_mono {r s : Ratio} (hr : 0 < r.den) (hs : 0 < s.den) (h : r.value ≤ s.value) : r.round ≤ s.round :=
  (round_nearestEven hr).mono (round_nearestEven hs) h

theorem round_eq_of_value_eq {n : Nat} (h : 0 < r.den) (hn : r.value = n) : r.round = n := by
  have hround := round_nearestEven h
  rw [hn] at hround
  exact Nat.le_antisymm (hround.mono (nearestEven_natCast n) le_rfl) ((nearestEven_natCast n).mono hround le_rfl)

/-! ## Logarithms -/

/-- An exponent that is right up to one is settled. -/
theorem settleLog_spec {b : Nat} (hb : 0 < b) (h : 0 < r.den) {e : Int} (hlow : (b : ℚ) ^ (e - 1) ≤ r.value)
    (hhigh : r.value < (b : ℚ) ^ (e + 1)) :
    (b : ℚ) ^ r.settleLog b e ≤ r.value ∧ r.value < (b : ℚ) ^ (r.settleLog b e + 1) := by
  have hpow : (0 : ℚ) < (b : ℚ) ^ e := zpow_pos (Nat.cast_pos.2 hb) e
  have hfloor : 1 ≤ (r.scale b (-e)).floor ↔ (b : ℚ) ^ e ≤ r.value := by
    rw [le_floor_iff (scale_den_pos hb _ h), value_scale hb, zpow_neg, ← div_eq_mul_inv, le_div_iff₀ hpow,
      Nat.cast_one, one_mul]
  unfold settleLog
  split
  · rename_i hle
    exact ⟨hfloor.1 hle, hhigh⟩
  · rename_i hlt
    rw [sub_add_cancel]
    exact ⟨hlow, not_le.1 (mt hfloor.2 hlt)⟩

/-- The logarithm of a positive fraction: a power of two that is at most its value, the next one being greater. -/
theorem floorLog2_spec (hnum : r.num ≠ 0) (hden : 0 < r.den) :
    (2 : ℚ) ^ r.floorLog2 ≤ r.value ∧ r.value < (2 : ℚ) ^ (r.floorLog2 + 1) := by
  have hbounds : ∀ n : Nat, n ≠ 0 → (2 : ℚ) ^ (n.log2 : Int) ≤ n ∧ (n : ℚ) < (2 : ℚ) ^ ((n.log2 : Int) + 1) := by
    intro n hn
    refine ⟨?_, ?_⟩
    · exact_mod_cast Nat.log2_self_le hn
    · exact_mod_cast Nat.lt_log2_self
  obtain ⟨hnlow, hnhigh⟩ := hbounds r.num hnum
  obtain ⟨hdlow, hdhigh⟩ := hbounds r.den hden.ne'
  have hden : (0 : ℚ) < r.den := Nat.cast_pos.2 hden
  refine settleLog_spec (by decide) (Nat.cast_pos.1 hden) ?_ ?_
  · rw [value, le_div_iff₀ hden]
    calc (2 : ℚ) ^ ((r.num.log2 : Int) - r.den.log2 - 1) * r.den
        ≤ (2 : ℚ) ^ ((r.num.log2 : Int) - r.den.log2 - 1) * (2 : ℚ) ^ ((r.den.log2 : Int) + 1) := by gcongr
      _ = (2 : ℚ) ^ (r.num.log2 : Int) := by rw [← zpow_add₀ two_ne_zero]; congr 1; omega
      _ ≤ r.num := hnlow
  · rw [value, div_lt_iff₀ hden]
    calc (r.num : ℚ) < (2 : ℚ) ^ ((r.num.log2 : Int) + 1) := hnhigh
      _ = (2 : ℚ) ^ ((r.num.log2 : Int) - r.den.log2 + 1) * (2 : ℚ) ^ (r.den.log2 : Int) := by
        rw [← zpow_add₀ two_ne_zero]; congr 1; omega
      _ ≤ (2 : ℚ) ^ ((r.num.log2 : Int) - r.den.log2 + 1) * r.den := by gcongr

end Lox.Ratio
