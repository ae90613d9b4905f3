import Lox.Proofs.Number.Shortest
import Lox.Proofs.Token.Span

/-!
Digits in plain notation.

* `Number.PlainLayout s text`: the three ways to lay digits out without an exponent.
* `Number.Plain s`: the digits are laid out as a numeral of the language that denotes them.

Without an exponent, zeros are added behind the digits, a point is put between them, or a point and zeros in front of
them. A numeral and a decimal of one value are read alike, so what is printed of a magnitude is read as the magnitude
(`formatMagnitude_plain`).
-/

namespace Lox

namespace Numeral

variable {ds : List Char} (h : ∀ d ∈ ds, d.isDigit = true)

include h

theorem value_ratio_whole : (ratio ds).value = Nat.ofDigitChars 10 ds 0 := by
  obtain ⟨hwhole, hfraction⟩ := parts_whole h
  rw [ratio, hwhole, hfraction, List.append_nil, Ratio.value]
  simp

theorem value_ratio_decimal (fs : List Char) :
    (ratio (ds ++ '.' :: fs)).value = Nat.ofDigitChars 10 (ds ++ fs) 0 * (10 : ℚ) ^ (-(fs.length : Int)) := by
  obtain ⟨hwhole, hfraction⟩ := parts_decimal h fs
  rw [ratio, hwhole, hfraction, Ratio.value, zpow_neg, zpow_natCast]
  dsimp only
  rw [Ratio.cast_pow, div_eq_mul_inv]
  rfl

end Numeral

namespace Number

/-- The digits are laid out as a numeral that denotes them. -/
def Plain (s : Scientific) : Prop :=
  ∃ text, layout s = .ok text ∧ Rule.Matches .number text ∧ (Numeral.ratio text).value = s.value

theorem isDigit_of_mem_zeros {n : Nat} : ∀ c ∈ List.replicate n '0', c.isDigit = true := by
  intro c hc
  rw [List.eq_of_mem_replicate hc]
  decide

/-- The texts of plain notation: zeros behind the digits, a point among them, or a point and zeros in front of them. -/
inductive PlainLayout (s : Scientific) : List Char → Prop
  | whole {n : Nat} : s.exponent + 1 = s.digits.length + n → PlainLayout s (s.digits ++ List.replicate n '0')
  | point {n : Nat} : s.exponent + 1 = n → 0 < n → n < s.digits.length →
      PlainLayout s (s.digits.take n ++ '.' :: s.digits.drop n)
  | zeros {n : Nat} : s.exponent + 1 = -n → PlainLayout s ('0' :: '.' :: (List.replicate n '0' ++ s.digits))

section Plain

variable {s : Scientific} {text : List Char} (hne : s.digits ≠ []) (hdigits : ∀ c ∈ s.digits, c.isDigit = true)

include hne

/-- At an exponent from `-6` to `20`, digits are laid out in plain notation. -/
theorem layout_plainLayout (hlow : -6 ≤ s.exponent) (hhigh : s.exponent < 21) :
    ∃ text, layout s = .ok text ∧ PlainLayout s text := by
  have hcount := List.length_pos_iff.2 hne
  have hplain : s.exponent + 1 ≤ plainWhole := hhigh
  have hplain' : -plainZeros < s.exponent + 1 := Int.lt_add_one_of_le hlow
  rcases le_or_gt (s.digits.length : Int) (s.exponent + 1) with hwhole | hwhole
  · obtain ⟨n, hn⟩ := Int.le.dest hwhole
    have hzeros : s.exponent + 1 - s.digits.length = n := by omega
    refine ⟨_, ?_, .whole hn.symm⟩
    rw [layout, if_pos ⟨hwhole, hplain⟩, hzeros, Range.copies_of_nonneg (by omega)]
    rfl
  rcases le_or_gt (s.exponent + 1) 0 with hpoint | hpoint
  · obtain ⟨n, hn⟩ := Int.eq_ofNat_of_zero_le (neg_nonneg.2 hpoint)
    have hzeros : s.exponent + 1 = -(n : Int) := by omega
    refine ⟨_, ?_, .zeros hzeros⟩
    rw [layout, if_neg (by omega), if_neg (by omega), if_pos ⟨hplain', hpoint⟩, hn, Range.copies_of_nonneg (by omega)]
    rfl
  · obtain ⟨n, hn⟩ := Int.eq_ofNat_of_zero_le hpoint.le
    have hpos : 0 < n := by omega
    have hlength : n < s.digits.length := by omega
    refine ⟨_, ?_, .point hn hpos hlength⟩
    rw [layout, if_neg (by omega), if_pos ⟨hpoint, hplain⟩, hn, Int.toNat_natCast, Range.splitAt_of_le hlength.le]
    rfl

include hdigits

/-- A text of plain notation is a numeral. -/
theorem PlainLayout.matches_number (h : PlainLayout s text) : Rule.Matches .number text := by
  cases h with
  | whole => exact .whole (by simp [hne]) (List.forall_mem_append.2 ⟨hdigits, isDigit_of_mem_zeros⟩)
  | point _ hpos hlength =>
    refine .decimal ?_ (fun c hc => hdigits c (List.mem_of_mem_take hc)) ?_ fun c hc => hdigits c (List.mem_of_mem_drop hc)
    · rw [← List.length_pos_iff, List.length_take]
      omega
    · rw [← List.length_pos_iff, List.length_drop]
      omega
  | zeros =>
    exact @Rule.Matches.decimal ['0'] _ (by simp) (@isDigit_of_mem_zeros 1) (by simp [hne])
      (List.forall_mem_append.2 ⟨isDigit_of_mem_zeros, hdigits⟩)

omit hne in
/-- A text of plain notation denotes what is laid out. -/
theorem PlainLayout.value_eq (h : PlainLayout s text) : (Numeral.ratio text).value = s.value := by
  cases h with
  | @whole n hn =>
    have hall : ∀ c ∈ s.digits ++ List.replicate n '0', c.isDigit = true :=
      List.forall_mem_append.2 ⟨hdigits, isDigit_of_mem_zeros⟩
    have hzeros : s.exponent + 1 - s.digits.length = n := by omega
    rw [Numeral.value_ratio_whole hall, Nat.ofDigitChars_append, Nat.ofDigitChars_replicate_zero, Scientific.value,
      hzeros, zpow_natCast]
    push_cast
    ring
  | @point n hn _ hlength =>
    have htake : ∀ c ∈ s.digits.take n, c.isDigit = true := fun c hc => hdigits c (List.mem_of_mem_take hc)
    rw [Numeral.value_ratio_decimal htake, List.take_append_drop, List.length_drop, Scientific.value, hn]
    congr 2
    omega
  | @zeros n hn =>
    have hzero : ∀ c ∈ ['0'], c.isDigit = true := @isDigit_of_mem_zeros 1
    have hvalue : Nat.ofDigitChars 10 (['0'] ++ (List.replicate n '0' ++ s.digits)) 0 =
        Nat.ofDigitChars 10 s.digits 0 := by
      have hzeros : ['0'] = List.replicate 1 '0' := rfl
      rw [hzeros, ← List.append_assoc, List.replicate_append_replicate, Nat.ofDigitChars_append,
        Nat.ofDigitChars_replicate_zero, Nat.mul_zero]
    have hratio := Numeral.value_ratio_decimal hzero (List.replicate n '0' ++ s.digits)
    rw [hvalue, List.length_append, List.length_replicate] at hratio
    rw [Scientific.value]
    refine hratio.trans ?_
    congr 2
    omega

/-- **Plain notation is exact.** At an exponent from `-6` to `20`, digits are laid out as a numeral that denotes them. -/
theorem layout_plain (hlow : -6 ≤ s.exponent) (hhigh : s.exponent < 21) : Plain s := by
  obtain ⟨text, htext, hlayout⟩ := layout_plainLayout hne hlow hhigh
  exact ⟨text, htext, hlayout.matches_number hne hdigits, hlayout.value_eq hdigits⟩

end Plain

/-- A magnitude that is zero or in the plain range is printed as a numeral that is read as the magnitude. -/
theorem formatMagnitude_plain {bits : Nat} (h : bits = 0 ∨ leastPlain ≤ bits ∧ bits < leastLarge) :
    ∃ text : List Char, formatMagnitude bits = .ok (String.ofList text) ∧ Rule.Matches .number text ∧
      Binary64.nearest (Numeral.ratio text) = bits := by
  rcases h with rfl | ⟨hlow, hhigh⟩
  · exact ⟨['0'], rfl, .whole (by simp) (List.all_eq_true.1 (by decide)), by decide⟩
  have hne : bits ≠ 0 := by
    unfold leastPlain at hlow
    omega
  have hfinite : bits < Binary64.infinity := by
    unfold leastLarge at hhigh
    unfold Binary64.infinity
    omega
  obtain ⟨hexponent, hexponent'⟩ := exponent_of_plain hlow hhigh
  have hdigits := Decimal.scientific_digits_ne_nil (Decimal.shortest_coefficient_ne_zero hne)
  obtain ⟨text, htext, hmatches, hvalue⟩ :=
    layout_plain hdigits (fun _ => Decimal.isDigit_of_mem_scientific) hexponent hexponent'
  refine ⟨text, ?_, hmatches, ?_⟩
  · rw [formatMagnitude, if_neg hne, if_pos hfinite, htext]
    rfl
  · -- the numeral and the shortest decimal have one value, and are read alike
    rw [Decimal.value_scientific, ← Decimal.value_ratio] at hvalue
    have hden : 0 < (Numeral.ratio text).den := Nat.pow_pos (by decide)
    rw [Binary64.nearest_congr hden (Decimal.ratio_den_pos _) hvalue]
    exact Decimal.shortest_readsAs hfinite

end Number

end Lox
