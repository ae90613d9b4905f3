import Lox.Proofs.Number.InRange
import Lox.Proofs.Number.Nearest

/-!
The values of decimals, and of the shortest one.

* `Decimal.value d`, `Scientific.value s`: the rational numbers they stand for.
* `Scientific.Normal s`: digits as they are printed, with no zero at either end.
* `Number.leastPlain`, `Number.leastLarge`: the magnitudes nearest to `10 ^ -6` and `10 ^ 21`.

The digits of a decimal are normal (`scientific_normal`), and the exponent of normal digits is the logarithm of their value
(`Normal.pow_le_value_iff`). The shortest decimal reads back as its magnitude, because the exact one does
(`shortest_readsAs`). Reading is monotone, so the exponent of a decimal that reads back is limited by those of the powers of
ten around the magnitude (`le_exponent`, `exponent_lt`).
-/

namespace Lox

/-! ## Decimals -/

namespace Decimal

/-- the rational number a decimal is -/
def value (d : Decimal) : ℚ := d.coefficient * (10 : ℚ) ^ d.exponent

theorem ratio_den_pos (d : Decimal) : 0 < d.ratio.den := Ratio.scale_den_pos (by decide) _ Nat.one_pos

theorem value_ratio (d : Decimal) : d.ratio.value = d.value := by
  rw [ratio, Ratio.value_scale (by decide)]
  simp [Ratio.value, value]

theorem value_pow (k : Int) : value ⟨1, k⟩ = (10 : ℚ) ^ k := by rw [value, Nat.cast_one, one_mul]

/-- What is read as less is less. -/
theorem value_lt_of_nearest_lt {d e : Decimal} (h : Binary64.nearest d.ratio < Binary64.nearest e.ratio) :
    d.value < e.value := by
  by_contra hle
  refine absurd h (not_lt.2 (Binary64.nearest_mono e.ratio_den_pos d.ratio_den_pos ?_))
  rw [value_ratio, value_ratio]
  exact not_lt.1 hle

/-- A fraction over a power of two has the value of its exact decimal. -/
theorem value_exact {r : Ratio} {k : Nat} (hden : r.den = Nat.pow 2 k) : (exact r).value = r.value := by
  have hlog : r.den.log2 = k := by
    rw [hden]
    exact Nat.log2_two_pow
  have hden : (r.den : ℚ) = (2 : ℚ) ^ k := by rw [hden, Ratio.cast_pow, Nat.cast_ofNat]
  have hten : ((Nat.pow 5 k : Nat) : ℚ) / (10 : ℚ) ^ k = 1 / (2 : ℚ) ^ k := by
    rw [Ratio.cast_pow, show (10 : ℚ) = 5 * 2 by norm_num, mul_pow]
    field_simp
    simp
  rw [exact, value, Ratio.value, hlog, hden]
  dsimp only
  rw [Nat.cast_mul, zpow_neg, zpow_natCast, ← div_eq_mul_inv, mul_div_assoc, hten, mul_one_div]

end Decimal

/-! ## Digits at an exponent -/

section Digits

variable {d : Char} {ds : List Char}

theorem ofDigitChars_cons_eq (d : Char) (ds : List Char) : Nat.ofDigitChars 10 (d :: ds) 0 =
    Nat.pow 10 ds.length * (d.toNat - '0'.toNat) + Nat.ofDigitChars 10 ds 0 := by
  rw [Nat.ofDigitChars_cons, Nat.ofDigitChars_eq_ofDigitChars_zero, Nat.mul_zero, Nat.zero_add]
  rfl

/-- A number is below the power of ten that counts its digits. -/
theorem ofDigitChars_lt (h : ∀ c ∈ ds, c.isDigit = true) : Nat.ofDigitChars 10 ds 0 < Nat.pow 10 ds.length := by
  induction ds with
  | nil => decide
  | cons d ds ih =>
    obtain ⟨hd, hds⟩ := List.forall_mem_cons.1 h
    have hdigit : d.toNat ≤ '0'.toNat + 9 := (Char.isDigit_iff_toNat.1 hd).2
    have hpow : Nat.pow 10 (d :: ds).length = Nat.pow 10 ds.length * 10 := rfl
    rw [ofDigitChars_cons_eq, hpow]
    calc Nat.pow 10 ds.length * (d.toNat - '0'.toNat) + Nat.ofDigitChars 10 ds 0
        < Nat.pow 10 ds.length * (d.toNat - '0'.toNat) + Nat.pow 10 ds.length := Nat.add_lt_add_left (ih hds) _
      _ = Nat.pow 10 ds.length * (d.toNat - '0'.toNat + 1) := (Nat.mul_succ _ _).symm
      _ ≤ Nat.pow 10 ds.length * 10 := Nat.mul_le_mul_left _ (by omega)

/-- A number whose first digit is not zero is from the power of ten before on. -/
theorem pow_le_ofDigitChars (hd : d.isDigit = true) (hzero : d ≠ '0') (ds : List Char) :
    Nat.pow 10 ds.length ≤ Nat.ofDigitChars 10 (d :: ds) 0 := by
  have hdigit : '0'.toNat ≤ d.toNat := (Char.isDigit_iff_toNat.1 hd).1
  have hne : d.toNat ≠ '0'.toNat := fun heq => hzero (Char.toNat_inj.1 heq)
  rw [ofDigitChars_cons_eq]
  calc Nat.pow 10 ds.length = Nat.pow 10 ds.length * 1 := (Nat.mul_one _).symm
    _ ≤ Nat.pow 10 ds.length * (d.toNat - '0'.toNat) := Nat.mul_le_mul_left _ (by omega)
    _ ≤ _ := Nat.le_add_right _ _

/-- The digits of a positive number do not start with a zero. -/
theorem head?_toDigits {n : Nat} (h : n ≠ 0) : (Nat.toDigits 10 n).head? ≠ some '0' := by
  intro hzero
  obtain ⟨ds, hds⟩ := List.head?_eq_some_iff.1 hzero
  have hvalue : n = Nat.ofDigitChars 10 ds 0 := by
    rw [← Nat.ofDigitChars_ten_toDigits (n := n), hds, Nat.ofDigitChars_cons]
    rfl
  have hdigits : ∀ c ∈ ds, c.isDigit = true := fun c hc =>
    Nat.isDigit_of_mem_toDigits (by decide) (by decide) (hds ▸ List.mem_cons_of_mem '0' hc)
  have hne : 0 < ds.length := by
    refine List.length_pos_iff.2 ?_
    rintro rfl
    exact h hvalue
  -- without the zero there would be digits enough
  have hle := (Nat.length_toDigits_le_iff (by decide) hne).2 (hvalue ▸ ofDigitChars_lt hdigits)
  rw [hds, List.length_cons] at hle
  omega

end Digits

namespace Scientific

variable {s : Scientific}

/-- the rational number of digits at an exponent -/
def value (s : Scientific) : ℚ :=
  Nat.ofDigitChars 10 s.digits 0 * (10 : ℚ) ^ (s.exponent + 1 - s.digits.length)

/-- Digits as they are printed: there is at least one, and no zero at either end. -/
structure Normal (s : Scientific) : Prop where
  ne_nil : s.digits ≠ []
  isDigit : ∀ c ∈ s.digits, c.isDigit = true
  leading : s.digits.head? ≠ some '0'
  trailing : s.digits.getLast? ≠ some '0'

namespace Normal

variable (h : s.Normal)

include h

theorem exists_cons : ∃ d ds, s.digits = d :: ds ∧ d.isDigit = true ∧ d ≠ '0' ∧ ∀ c ∈ ds, c.isDigit = true := by
  obtain ⟨d, ds, heq⟩ := List.exists_cons_of_ne_nil h.ne_nil
  have hdigits := h.isDigit
  have hleading := h.leading
  rw [heq, List.forall_mem_cons] at hdigits
  rw [heq, List.head?_cons] at hleading
  exact ⟨d, ds, heq, hdigits.1, fun hzero => hleading (congrArg some hzero), hdigits.2⟩

/-- The value of normal digits is from ten to their exponent on, and below the next power of ten. -/
theorem bounds : (10 : ℚ) ^ s.exponent ≤ s.value ∧ s.value < (10 : ℚ) ^ (s.exponent + 1) := by
  obtain ⟨d, ds, heq, hd, hzero, hds⟩ := h.exists_cons
  have hlow : (10 : ℚ) ^ ds.length ≤ Nat.ofDigitChars 10 s.digits 0 := by
    rw [heq]
    exact_mod_cast pow_le_ofDigitChars hd hzero ds
  have hhigh : (Nat.ofDigitChars 10 s.digits 0 : ℚ) < (10 : ℚ) ^ s.digits.length := by
    exact_mod_cast ofDigitChars_lt h.isDigit
  have hlength : s.digits.length = ds.length + 1 := by rw [heq, List.length_cons]
  have hpow : (0 : ℚ) < (10 : ℚ) ^ (s.exponent + 1 - s.digits.length) := by positivity
  constructor
  · calc (10 : ℚ) ^ s.exponent = (10 : ℚ) ^ ds.length * (10 : ℚ) ^ (s.exponent + 1 - s.digits.length) := by
          rw [← zpow_natCast, ← zpow_add₀ (by norm_num)]
          congr 1
          omega
      _ ≤ s.value := mul_le_mul_of_nonneg_right hlow hpow.le
  · calc s.value < (10 : ℚ) ^ s.digits.length * (10 : ℚ) ^ (s.exponent + 1 - s.digits.length) :=
          mul_lt_mul_of_pos_right hhigh hpow
      _ = (10 : ℚ) ^ (s.exponent + 1) := by
          rw [← zpow_natCast, ← zpow_add₀ (by norm_num)]
          congr 1
          omega

/-- The exponent of normal digits is the logarithm of their value. -/
theorem pow_le_value_iff {k : Int} : (10 : ℚ) ^ k ≤ s.value ↔ k ≤ s.exponent := by
  obtain ⟨hlow, hhigh⟩ := h.bounds
  have hten : (1 : ℚ) < 10 := by norm_num
  constructor
  · intro hle
    exact Int.lt_add_one_iff.1 ((zpow_lt_zpow_iff_right₀ hten).1 (hle.trans_lt hhigh))
  · intro hle
    exact (zpow_le_zpow_right₀ hten.le hle).trans hlow

end Normal

end Scientific

namespace Decimal

/-- The digits of a decimal are those of its coefficient but for the zeros at the end. -/
theorem exists_digits_append (d : Decimal) : ∃ k : Nat,
    Nat.toDigits 10 d.coefficient = d.scientific.digits ++ List.replicate k '0' := by
  have hsplit := List.takeWhile_append_dropWhile (p := (· = '0')) (l := (Nat.toDigits 10 d.coefficient).reverse)
  have hzeros : ∀ c ∈ (Nat.toDigits 10 d.coefficient).reverse.takeWhile (· = '0'), c = '0' := by
    intro c hc
    simpa using List.mem_takeWhile_imp hc
  rw [List.eq_replicate_of_mem hzeros] at hsplit
  have hdigits := congrArg List.reverse hsplit
  rw [List.reverse_append, List.reverse_replicate, List.reverse_reverse] at hdigits
  exact ⟨_, hdigits.symm⟩

theorem isDigit_of_mem_scientific {d : Decimal} {c : Char} (h : c ∈ d.scientific.digits) : c.isDigit = true := by
  obtain ⟨k, hk⟩ := d.exists_digits_append
  exact Nat.isDigit_of_mem_toDigits (by decide) (by decide) (hk ▸ List.mem_append_left _ h)

/-- Without the zeros at the end the digits have the same value. -/
theorem value_scientific (d : Decimal) : d.scientific.value = d.value := by
  obtain ⟨k, hk⟩ := d.exists_digits_append
  have hcoefficient : (d.coefficient : ℚ) = Nat.ofDigitChars 10 d.scientific.digits 0 * (10 : ℚ) ^ k := by
    have hvalue : Nat.ofDigitChars 10 (Nat.toDigits 10 d.coefficient) 0 = d.coefficient := Nat.ofDigitChars_ten_toDigits
    rw [hk, Nat.ofDigitChars_append, Nat.ofDigitChars_replicate_zero, Nat.mul_comm] at hvalue
    rw [← hvalue]
    push_cast
    rfl
  have hexponent : d.scientific.exponent + 1 - d.scientific.digits.length = d.exponent + k := by
    have hlength := congrArg List.length hk
    rw [List.length_append, List.length_replicate] at hlength
    show d.exponent + ((Nat.toDigits 10 d.coefficient).length : Int) - 1 + 1 - d.scientific.digits.length = _
    omega
  rw [Scientific.value, value, hexponent, hcoefficient, zpow_add₀ (by norm_num), zpow_natCast]
  ring

/-- The digits of a positive decimal are normal: those of its coefficient start with no zero, and the zeros at their end are
dropped. -/
theorem scientific_normal {d : Decimal} (h : d.coefficient ≠ 0) : d.scientific.Normal where
  ne_nil := scientific_digits_ne_nil h
  isDigit _ := isDigit_of_mem_scientific
  leading := by
    obtain ⟨k, hk⟩ := d.exists_digits_append
    obtain ⟨c, cs, hcs⟩ := List.exists_cons_of_ne_nil (scientific_digits_ne_nil h)
    have hhead := head?_toDigits h
    rwa [hk, hcs, List.cons_append, List.head?_cons, ← List.head?_cons (l := cs), ← hcs] at hhead
  trailing := by
    show (List.reverse (List.dropWhile (· = '0') (Nat.toDigits 10 d.coefficient).reverse)).getLast? ≠ some '0'
    intro hzero
    have hhead := List.head?_dropWhile_not (fun c : Char => decide (c = '0')) (Nat.toDigits 10 d.coefficient).reverse
    rw [List.getLast?_reverse] at hzero
    rw [hzero] at hhead
    exact absurd hhead (by decide)

end Decimal

/-! ## The shortest decimal -/

/-- What a magnitude stands for has a power of two as its denominator. -/
theorem Binary64.ratio_den (bits : Nat) : ∃ k, (ratio bits).den = Nat.pow 2 k := by
  have hden : ∀ (e : Int) (m : Nat), ∃ k, (Ratio.scale 2 e ⟨m, 1⟩).den = Nat.pow 2 k := fun e m => ⟨_, Nat.one_mul _⟩
  unfold ratio
  split <;> exact hden _ _

namespace Decimal

/-- The exact decimal of a finite magnitude reads back as the magnitude. -/
theorem exact_readsAs {bits : Nat} (h : bits < Binary64.infinity) : (exact (Binary64.ratio bits)).ReadsAs bits := by
  obtain ⟨k, hk⟩ := Binary64.ratio_den bits
  have hvalue : (exact (Binary64.ratio bits)).ratio.value = (Binary64.ratio bits).value := by
    rw [value_ratio, value_exact hk]
  rw [ReadsAs, Binary64.nearest_congr (ratio_den_pos _) (Binary64.ratio_den_pos bits) hvalue]
  exact Binary64.nearest_ratio h

/-- **The shortest decimal reads back.** -/
theorem shortest_readsAs {bits : Nat} (h : bits < Binary64.infinity) : (shortest bits).ReadsAs bits := by
  unfold shortest
  dsimp only
  generalize hfound : List.find? _ _ = found
  cases found with
  | none => exact exact_readsAs h
  | some d => simpa using List.find?_some hfound

end Decimal

/-! ## Exponents -/

namespace Number

open Decimal

section Exponents

variable {bits : Nat} (hne : bits ≠ 0) (hfinite : bits < Binary64.infinity) {k : Int}

include hne hfinite

/-- A magnitude above a power of ten has no lesser exponent. -/
theorem le_exponent (h : Binary64.nearest (Decimal.ratio ⟨1, k⟩) < bits) : k ≤ (shortest bits).scientific.exponent := by
  have hlt := value_lt_of_nearest_lt (h.trans_eq (shortest_readsAs hfinite).symm)
  rw [value_pow, ← value_scientific] at hlt
  exact (scientific_normal (shortest_coefficient_ne_zero hne)).pow_le_value_iff.1 hlt.le

/-- A magnitude below a power of ten has a lesser exponent. -/
theorem exponent_lt (h : bits < Binary64.nearest (Decimal.ratio ⟨1, k⟩)) : (shortest bits).scientific.exponent < k := by
  have hlt := value_lt_of_nearest_lt ((shortest_readsAs hfinite).trans_lt h)
  rw [value_pow, ← value_scientific] at hlt
  exact not_le.1 (mt (scientific_normal (shortest_coefficient_ne_zero hne)).pow_le_value_iff.2 (not_le.2 hlt))

end Exponents

/-- The exponents of finite magnitudes: `10 ^ -324` is read as zero, and `10 ^ 309` as infinity. -/
theorem exponent_of_finite {bits : Nat} (hne : bits ≠ 0) (hfinite : bits < Binary64.infinity) :
    -324 ≤ (shortest bits).scientific.exponent ∧ (shortest bits).scientific.exponent ≤ 308 := by
  have hzero : Binary64.nearest (Decimal.ratio ⟨1, -324⟩) = 0 := by decide +kernel
  have hinfinity : Binary64.nearest (Decimal.ratio ⟨1, 309⟩) = Binary64.infinity := by decide +kernel
  refine ⟨le_exponent hne hfinite ?_, Int.lt_add_one_iff.1 (exponent_lt hne hfinite ?_)⟩
  · rw [hzero]
    exact Nat.pos_of_ne_zero hne
  · exact hinfinity.symm ▸ hfinite

/-- the magnitude nearest to `10 ^ -6`, from which on notation is plain -/
def leastPlain : Nat := 0x3EB0C6F7A0B5ED8D

/-- the magnitude of `10 ^ 21`, from which on notation is not plain again -/
def leastLarge : Nat := 0x444B1AE4D6E2EF50

theorem nearest_leastPlain : Binary64.nearest (Decimal.ratio ⟨1, -6⟩) = leastPlain := by decide +kernel

theorem nearest_leastLarge : Binary64.nearest (Decimal.ratio ⟨1, 21⟩) = leastLarge := by decide +kernel

theorem exponent_leastPlain : (shortest leastPlain).scientific.exponent = -6 := by decide +kernel

/-- The exponent of the shortest decimal of a magnitude in the plain range. -/
theorem exponent_of_plain {bits : Nat} (hlow : leastPlain ≤ bits) (hhigh : bits < leastLarge) :
    -6 ≤ (shortest bits).scientific.exponent ∧ (shortest bits).scientific.exponent < 21 := by
  have hne : bits ≠ 0 := by
    unfold leastPlain at hlow
    omega
  have hfinite : bits < Binary64.infinity := hhigh.trans (by decide)
  refine ⟨?_, exponent_lt hne hfinite (nearest_leastLarge.symm ▸ hhigh)⟩
  rcases hlow.eq_or_lt with heq | hlt
  · rw [← heq, exponent_leastPlain]
  · exact le_exponent hne hfinite (nearest_leastPlain.symm ▸ hlt)

end Number

end Lox
