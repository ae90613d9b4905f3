import Lox.Number.Binary64
import Lox.Proofs.Number.Ratio

/-!
Reading fractions as magnitudes.

* `Binary64.unit r`: the exponent of the unit a positive fraction is rounded in.

In its unit a fraction is below `2 ^ 53`, and from `2 ^ 52` on unless the unit is the least one. A greater unit therefore
gives a greater magnitude, so that `nearest` is monotone in the value (`nearest_mono`), and depends on nothing else. What a
finite magnitude stands for is read as the magnitude itself (`nearest_ratio`).
-/

namespace Lox.Binary64

variable {r s : Ratio}

/-! ## Units -/

/-- the exponent of the unit that a positive fraction is rounded in -/
def unit (r : Ratio) : Int := max minExponent (r.floorLog2 - 52)

/-- the fraction in its unit -/
def inUnit (r : Ratio) : Ratio := r.scale 2 (-unit r)

theorem nearest_of_num_ne_zero (h : r.num ≠ 0) :
    nearest r = min infinity ((unit r - minExponent).toNat * hiddenBit + (inUnit r).round) := by
  unfold nearest
  rw [if_neg h]
  rfl

theorem nearest_le_infinity (r : Ratio) : nearest r ≤ infinity := by
  unfold nearest
  split
  · exact Nat.zero_le _
  · exact Nat.min_le_left _ _

theorem hiddenBit_eq : (hiddenBit : ℚ) = (2 : ℚ) ^ (52 : Int) := by norm_num [hiddenBit]

theorem minExponent_le_unit (r : Ratio) : minExponent ≤ unit r := le_max_left _ _

theorem inUnit_den_pos (hden : 0 < r.den) : 0 < (inUnit r).den := Ratio.scale_den_pos (by decide) _ hden

theorem value_inUnit (r : Ratio) : (inUnit r).value * (2 : ℚ) ^ unit r = r.value := by
  rw [inUnit, Ratio.value_scale (by decide), mul_assoc]
  push_cast
  rw [← zpow_add₀ two_ne_zero, neg_add_cancel, zpow_zero, mul_one]

section Positive

variable (hnum : r.num ≠ 0) (hden : 0 < r.den)

include hnum hden

/-- In its unit a fraction has at most fifty-three bits before the point. -/
theorem inUnit_lt : (inUnit r).value < 2 * hiddenBit := by
  obtain ⟨-, hhigh⟩ := Ratio.floorLog2_spec hnum hden
  have hle : r.floorLog2 + 1 ≤ 53 + unit r := by
    have hunit : r.floorLog2 - 52 ≤ unit r := le_max_right _ _
    omega
  have hpow : (0 : ℚ) < (2 : ℚ) ^ unit r := by positivity
  refine lt_of_mul_lt_mul_right ?_ hpow.le
  calc (inUnit r).value * (2 : ℚ) ^ unit r = r.value := value_inUnit r
    _ < (2 : ℚ) ^ (r.floorLog2 + 1) := hhigh
    _ ≤ (2 : ℚ) ^ (53 + unit r) := zpow_le_zpow_right₀ one_le_two hle
    _ = 2 * hiddenBit * (2 : ℚ) ^ unit r := by
      rw [zpow_add₀ two_ne_zero, hiddenBit_eq]
      norm_num

/-- If the unit is not the least one, the fraction has all of them. -/
theorem le_inUnit (hunit : minExponent < unit r) : hiddenBit ≤ (inUnit r).value := by
  obtain ⟨hlow, -⟩ := Ratio.floorLog2_spec hnum hden
  have heq : r.floorLog2 = 52 + unit r := by
    unfold unit at hunit ⊢
    omega
  have hpow : (0 : ℚ) < (2 : ℚ) ^ unit r := by positivity
  refine le_of_mul_le_mul_right ?_ hpow
  calc (hiddenBit : ℚ) * (2 : ℚ) ^ unit r = (2 : ℚ) ^ (52 + unit r) := by rw [zpow_add₀ two_ne_zero, hiddenBit_eq]
    _ ≤ r.value := heq ▸ hlow
    _ = (inUnit r).value * (2 : ℚ) ^ unit r := (value_inUnit r).symm

theorem round_inUnit_le : (inUnit r).round ≤ 2 * hiddenBit := by
  refine (Ratio.round_nearestEven (inUnit_den_pos hden)).mono (Ratio.nearestEven_natCast _) ?_
  exact_mod_cast (inUnit_lt hnum hden).le

theorem le_round_inUnit (hunit : minExponent < unit r) : hiddenBit ≤ (inUnit r).round :=
  (Ratio.nearestEven_natCast _).mono (Ratio.round_nearestEven (inUnit_den_pos hden)) (le_inUnit hnum hden hunit)

theorem unit_mono (hnum' : s.num ≠ 0) (hden' : 0 < s.den) (h : r.value ≤ s.value) : unit r ≤ unit s := by
  obtain ⟨hlow, -⟩ := Ratio.floorLog2_spec hnum hden
  obtain ⟨-, hhigh⟩ := Ratio.floorLog2_spec hnum' hden'
  have hlt : r.floorLog2 < s.floorLog2 + 1 :=
    (zpow_lt_zpow_iff_right₀ one_lt_two).1 (hlow.trans_lt (h.trans_lt hhigh))
  unfold unit
  omega

end Positive

/-! ## Rounding is monotone -/

/-- The nearest magnitude grows with the value. -/
theorem nearest_mono (hr : 0 < r.den) (hs : 0 < s.den) (h : r.value ≤ s.value) : nearest r ≤ nearest s := by
  by_cases hr₀ : r.num = 0
  · simp [nearest, hr₀]
  have hs₀ : s.num ≠ 0 := by
    intro hs₀
    rw [(Ratio.value_eq_zero_iff hs).2 hs₀] at h
    exact absurd h (not_le.2 (Ratio.value_pos hr₀ hr))
  rw [nearest_of_num_ne_zero hr₀, nearest_of_num_ne_zero hs₀]
  refine min_le_min le_rfl ?_
  rcases (unit_mono hr₀ hr hs₀ hs h).eq_or_lt with heq | hlt
  · -- in one unit, the roundings are in order
    have hround : (inUnit r).round ≤ (inUnit s).round := by
      refine Ratio.round_mono (inUnit_den_pos hr) (inUnit_den_pos hs) ?_
      have hpow : (0 : ℚ) < (2 : ℚ) ^ unit s := by positivity
      refine le_of_mul_le_mul_right ?_ hpow
      rw [value_inUnit s, ← heq, value_inUnit r]
      exact h
    rw [heq]
    omega
  · -- the lesser unit gives no more than its carry, and the greater one no less than its hidden bit
    have hmin := minExponent_le_unit r
    have hhigh := round_inUnit_le hr₀ hr
    have hlow := le_round_inUnit hs₀ hs (hmin.trans_lt hlt)
    have hunits : (unit r - minExponent).toNat + 1 ≤ (unit s - minExponent).toNat := by omega
    have hmul := Nat.mul_le_mul_right hiddenBit hunits
    rw [Nat.add_mul, Nat.one_mul] at hmul
    omega

/-- The nearest magnitude depends on the value only. -/
theorem nearest_congr (hr : 0 < r.den) (hs : 0 < s.den) (h : r.value = s.value) : nearest r = nearest s :=
  Nat.le_antisymm (nearest_mono hr hs h.le) (nearest_mono hs hr h.ge)

/-! ## Magnitudes are read as they are -/

section Exact

variable {m : Nat} {q : Int}

theorem num_ne_zero_of_value_eq (hden : 0 < r.den) (hm : m ≠ 0) (hvalue : r.value = m * (2 : ℚ) ^ q) : r.num ≠ 0 := by
  intro hnum
  rw [(Ratio.value_eq_zero_iff hden).2 hnum] at hvalue
  exact mul_ne_zero (Nat.cast_ne_zero.2 hm) (zpow_ne_zero q two_ne_zero) hvalue.symm

/-- A significand counts its own unit, if it has its hidden bit or the unit is the least one. -/
theorem unit_of_value_eq (hden : 0 < r.den) (hm : m ≠ 0) (hvalue : r.value = m * (2 : ℚ) ^ q)
    (hhigh : m < 2 * hiddenBit) (hq : minExponent ≤ q) (hlow : hiddenBit ≤ m ∨ q = minExponent) : unit r = q := by
  obtain ⟨hlog, hlog'⟩ := Ratio.floorLog2_spec (num_ne_zero_of_value_eq hden hm hvalue) hden
  have hle : r.floorLog2 < 53 + q := by
    refine (zpow_lt_zpow_iff_right₀ (one_lt_two (α := ℚ))).1 (hlog.trans_lt ?_)
    calc r.value = m * (2 : ℚ) ^ q := hvalue
      _ < (2 * hiddenBit : Nat) * (2 : ℚ) ^ q := by gcongr
      _ = (2 : ℚ) ^ (53 + q) := by
        rw [zpow_add₀ two_ne_zero, Nat.cast_mul, hiddenBit_eq]
        norm_num
  unfold unit
  rcases hlow with hlow | hlow
  · have hge : 52 + q < r.floorLog2 + 1 := by
      refine (zpow_lt_zpow_iff_right₀ (one_lt_two (α := ℚ))).1 (lt_of_le_of_lt ?_ hlog')
      rw [zpow_add₀ two_ne_zero, ← hiddenBit_eq, hvalue]
      gcongr
    omega
  · omega

/-- A significand is read exactly, if it has its hidden bit or the unit is the least one. -/
theorem nearest_of_value_eq (hden : 0 < r.den) (hm : m ≠ 0) (hvalue : r.value = m * (2 : ℚ) ^ q)
    (hhigh : m < 2 * hiddenBit) (hq : minExponent ≤ q) (hlow : hiddenBit ≤ m ∨ q = minExponent) :
    nearest r = min infinity ((q - minExponent).toNat * hiddenBit + m) := by
  have hunit := unit_of_value_eq hden hm hvalue hhigh hq hlow
  have hround : (inUnit r).round = m := by
    refine Ratio.round_eq_of_value_eq (inUnit_den_pos hden) ?_
    have hinUnit := value_inUnit r
    rw [hunit, hvalue] at hinUnit
    exact mul_right_cancel₀ (zpow_ne_zero q two_ne_zero) hinUnit
  rw [nearest_of_num_ne_zero (num_ne_zero_of_value_eq hden hm hvalue), hunit, hround]

end Exact

theorem ratio_den_pos (bits : Nat) : 0 < (ratio bits).den := by
  unfold ratio
  split <;> exact Ratio.scale_den_pos (by decide) _ Nat.one_pos

/-- **Magnitudes are read exactly.** The magnitude nearest to the fraction that a finite magnitude stands for is
that magnitude. -/
theorem nearest_ratio {bits : Nat} (h : bits < infinity) : nearest (ratio bits) = bits := by
  by_cases hzero : bits = 0
  · subst hzero
    decide
  have hden := ratio_den_pos bits
  have hvalue : ∀ (m : Nat) (q : Int), (Ratio.scale 2 q ⟨m, 1⟩).value = m * (2 : ℚ) ^ q := by
    intro m q
    rw [Ratio.value_scale (by decide)]
    simp [Ratio.value]
  by_cases hlow : bits < hiddenBit
  · have hratio : (ratio bits).value = bits * (2 : ℚ) ^ minExponent := by
      rw [ratio, if_pos hlow, hvalue]
    rw [nearest_of_value_eq hden hzero hratio (by omega) le_rfl (.inr rfl), Int.sub_self, Int.toNat_zero, Nat.zero_mul,
      Nat.zero_add]
    exact min_eq_right h.le
  · have hratio : (ratio bits).value =
        (hiddenBit + bits % hiddenBit : Nat) * (2 : ℚ) ^ (minExponent + (bits / hiddenBit - 1 : Nat)) := by
      rw [ratio, if_neg hlow, hvalue]
    have hfields := Nat.div_add_mod bits hiddenBit
    have hfraction := Nat.mod_lt bits (by decide : 0 < hiddenBit)
    have hexponent : 0 < bits / hiddenBit := Nat.div_pos (not_lt.1 hlow) (by decide)
    rw [nearest_of_value_eq hden (by omega) hratio (by omega) (by omega) (.inl (Nat.le_add_right _ _)),
      add_sub_cancel_left, Int.toNat_natCast, Nat.sub_one_mul, ← Nat.mul_comm hiddenBit]
    have hle := Nat.le_mul_of_pos_right hiddenBit hexponent
    omega

end Lox.Binary64
