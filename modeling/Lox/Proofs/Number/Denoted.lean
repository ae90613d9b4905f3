import Lox.Proofs.Number.Layout

/-!
What the text of a magnitude denotes, in plain notation or with an exponent.

* `Number.power suffix`: the power of ten that a suffix says, a sign and digits.
* `Number.denoted text`: the numeral in front of the letter of an exponent, times the power of ten behind it.
* `Number.Laid s text`: the text of digits at an exponent denotes them, and starts with a digit.

All layouts denote what is laid out (`layout_denotes`), and what is printed of a magnitude denotes a fraction that the
magnitude is nearest to. So no two magnitudes are printed alike (`formatMagnitude_inj`).
-/

namespace Lox.Number

/-- the power of ten that a suffix says: a sign and digits, or nothing -/
def power : List Char → Int
  | '-' :: ds => -(Nat.ofDigitChars 10 ds 0 : Nat)
  | '+' :: ds => (Nat.ofDigitChars 10 ds 0 : Nat)
  | _ => 0

/-- the fraction that the text of a number denotes -/
def denoted (text : List Char) : Ratio :=
  (Numeral.ratio (text.takeWhile (· ≠ 'e'))).scale 10 (power ((text.dropWhile (· ≠ 'e')).drop 1))

/-- The character is one of the texts of finite numbers. -/
def isNumeric (c : Char) : Bool := c.isDigit || c = '.' || c = 'e' || c = '+' || c = '-'

/-- The text starts with a digit, and all its characters are those of numbers. -/
def Numeric (text : List Char) : Prop :=
  (∃ d ds, text = d :: ds ∧ d.isDigit = true) ∧ ∀ c ∈ text, isNumeric c = true

theorem denoted_den_pos (text : List Char) : 0 < (denoted text).den :=
  Ratio.scale_den_pos (by decide) _ (Nat.pow_pos (by decide))

theorem isNumeric_of_isDigit {c : Char} (h : c.isDigit = true) : isNumeric c = true := by simp [isNumeric, h]

/-- A numeral has no exponent. -/
theorem ne_exponent_of_matches {text : List Char} (h : Rule.Matches .number text) :
    Numeric text ∧ ∀ c ∈ text, decide (c ≠ 'e') = true := by
  have hdigit : ∀ {c : Char}, c.isDigit = true → decide (c ≠ 'e') = true := by
    intro c hc
    refine decide_eq_true ?_
    rintro rfl
    exact absurd hc (by decide)
  cases h with
  | whole hne hds =>
    obtain ⟨d, ds, rfl⟩ := List.exists_cons_of_ne_nil hne
    exact ⟨⟨⟨d, ds, rfl, hds d List.mem_cons_self⟩, fun c hc => isNumeric_of_isDigit (hds c hc)⟩,
      fun c hc => hdigit (hds c hc)⟩
  | @decimal ds fs hne hds _ hfs =>
    obtain ⟨d, ds, rfl⟩ := List.exists_cons_of_ne_nil hne
    refine ⟨⟨⟨d, ds ++ '.' :: fs, rfl, hds d List.mem_cons_self⟩, ?_⟩, ?_⟩
    · refine List.forall_mem_append.2 ⟨fun c hc => isNumeric_of_isDigit (hds c hc), ?_⟩
      exact List.forall_mem_cons.2 ⟨by decide, fun c hc => isNumeric_of_isDigit (hfs c hc)⟩
    · refine List.forall_mem_append.2 ⟨fun c hc => hdigit (hds c hc), ?_⟩
      exact List.forall_mem_cons.2 ⟨by decide, fun c hc => hdigit (hfs c hc)⟩

/-- In plain notation the text denotes what the numeral does. -/
theorem value_denoted_plain {text : List Char} (h : ∀ c ∈ text, decide (c ≠ 'e') = true) :
    (denoted text).value = (Numeral.ratio text).value := by
  rw [denoted, List.takeWhile_eq_self_iff.2 h, List.dropWhile_eq_nil_iff.2 h, Ratio.value_scale (by decide)]
  simp [power]

/-- Behind the letter of an exponent stands a power of ten. -/
theorem value_denoted_exponent {mantissa : List Char} (h : ∀ c ∈ mantissa, decide (c ≠ 'e') = true)
    (suffix : List Char) : (denoted (mantissa ++ 'e' :: suffix)).value =
      (Numeral.ratio mantissa).value * (10 : ℚ) ^ power suffix := by
  have htake : (mantissa ++ 'e' :: suffix).takeWhile (· ≠ 'e') = mantissa := by
    rw [List.takeWhile_append_of_pos h]
    simp
  have hdrop : (mantissa ++ 'e' :: suffix).dropWhile (· ≠ 'e') = 'e' :: suffix := by
    rw [List.dropWhile_append_of_pos h]
    simp
  rw [denoted, htake, hdrop, Ratio.value_scale (by decide)]
  rfl

/-! ## Layouts -/

/-- the sign and the digits of an exponent -/
def suffixOf (e : Int) : List Char := (if e < 0 then '-' else '+') :: Nat.toDigits 10 e.natAbs

theorem power_suffixOf (e : Int) : power (suffixOf e) = e := by
  unfold suffixOf
  split
  · rw [power, Nat.ofDigitChars_ten_toDigits]
    omega
  · rw [power, Nat.ofDigitChars_ten_toDigits]
    omega

theorem isNumeric_of_mem_suffixOf {e : Int} : ∀ c ∈ suffixOf e, isNumeric c = true := by
  refine List.forall_mem_cons.2 ⟨?_, fun c hc => ?_⟩
  · split <;> decide
  · exact isNumeric_of_isDigit (Nat.isDigit_of_mem_toDigits (by decide) (by decide) hc)

/-- the digits of a mantissa with a point behind the first, if there are more -/
def mantissaOf (d : Char) (ds : List Char) : List Char := if ds = [] then [d] else [d] ++ '.' :: ds

section Digits

variable {d : Char} {ds : List Char} (hd : d.isDigit = true) (hds : ∀ c ∈ ds, c.isDigit = true)

include hd hds

theorem mantissaOf_matches : Rule.Matches .number (mantissaOf d ds) := by
  have hfirst : ∀ c ∈ [d], c.isDigit = true := List.forall_mem_singleton.2 hd
  unfold mantissaOf
  split
  · exact .whole (by simp) hfirst
  · rename_i hne
    exact .decimal (by simp) hfirst hne hds

theorem value_mantissaOf : (Numeral.ratio (mantissaOf d ds)).value =
    Nat.ofDigitChars 10 (d :: ds) 0 * (10 : ℚ) ^ (-(ds.length : Int)) := by
  have hfirst : ∀ c ∈ [d], c.isDigit = true := List.forall_mem_singleton.2 hd
  unfold mantissaOf
  split
  · rename_i hnil
    subst hnil
    rw [Numeral.value_ratio_whole hfirst]
    simp
  · exact Numeral.value_ratio_decimal hfirst ds

end Digits

/-- The text of digits at an exponent denotes them, and starts with a digit. -/
structure Laid (s : Scientific) (text : List Char) : Prop where
  layout_eq : layout s = .ok text
  numeric : Numeric text
  value_eq : (denoted text).value = s.value

section Layouts

variable {s : Scientific} (hne : s.digits ≠ []) (hdigits : ∀ c ∈ s.digits, c.isDigit = true)

include hne

/-- Outside of plain notation the layout has the letter of an exponent behind a mantissa. -/
theorem layout_exponent (h : s.exponent < -6 ∨ 21 ≤ s.exponent) : ∃ d ds, s.digits = d :: ds ∧
    layout s = .ok (mantissaOf d ds ++ 'e' :: suffixOf s.exponent) := by
  obtain ⟨d, ds, heq⟩ := List.exists_cons_of_ne_nil hne
  have hplain : plainWhole = 21 ∧ plainZeros = 6 := ⟨rfl, rfl⟩
  have hcount : 0 < s.digits.length := List.length_pos_iff.2 hne
  refine ⟨d, ds, heq, ?_⟩
  rw [layout, if_neg (by omega), if_neg (by omega), if_neg (by omega), Range.splitAt_of_le hcount, heq]
  rw [mantissaOf, suffixOf]
  cases ds <;> rfl

include hdigits

/-- An exponent outside of plain notation stands behind the digits. -/
theorem laid_exponent (h : s.exponent < -6 ∨ 21 ≤ s.exponent) : ∃ text, Laid s text := by
  obtain ⟨d, ds, heq, hlayout⟩ := layout_exponent hne h
  rw [heq, List.forall_mem_cons] at hdigits
  have hmatches := mantissaOf_matches hdigits.1 hdigits.2
  obtain ⟨⟨⟨c, cs, hcs, hc⟩, hnumeric⟩, hplain⟩ := ne_exponent_of_matches hmatches
  refine ⟨_, hlayout, ⟨⟨c, cs ++ 'e' :: suffixOf s.exponent, by rw [hcs, List.cons_append], hc⟩, ?_⟩, ?_⟩
  · refine List.forall_mem_append.2 ⟨hnumeric, ?_⟩
    exact List.forall_mem_cons.2 ⟨by decide, isNumeric_of_mem_suffixOf⟩
  · rw [value_denoted_exponent hplain, value_mantissaOf hdigits.1 hdigits.2, power_suffixOf, Scientific.value, heq,
      mul_assoc, ← zpow_add₀ (by norm_num)]
    congr 2
    rw [List.length_cons]
    push_cast
    ring

/-- **Layouts are exact.** Digits at an exponent are laid out as a text that denotes them. -/
theorem layout_denotes : ∃ text, Laid s text := by
  by_cases hlow : s.exponent < -6
  · exact laid_exponent hne hdigits (.inl hlow)
  by_cases hhigh : 21 ≤ s.exponent
  · exact laid_exponent hne hdigits (.inr hhigh)
  obtain ⟨text, htext, hmatches, hvalue⟩ := layout_plain hne hdigits (not_lt.1 hlow) (not_le.1 hhigh)
  obtain ⟨hnumeric, hplain⟩ := ne_exponent_of_matches hmatches
  exact ⟨text, htext, hnumeric, (value_denoted_plain hplain).trans hvalue⟩

end Layouts

/-! ## Magnitudes -/

/-- The text of a finite magnitude denotes a fraction that the magnitude is nearest to. -/
theorem formatMagnitude_denotes {bits : Nat} (h : bits < Binary64.infinity) : ∃ text : List Char,
    formatMagnitude bits = .ok (String.ofList text) ∧ Numeric text ∧ Binary64.nearest (denoted text) = bits := by
  by_cases hzero : bits = 0
  · subst hzero
    exact ⟨['0'], rfl, ⟨⟨'0', [], rfl, by decide⟩, List.forall_mem_singleton.2 (by decide)⟩, by decide⟩
  have hdigits := Decimal.scientific_digits_ne_nil (Decimal.shortest_coefficient_ne_zero hzero)
  obtain ⟨text, hlaid⟩ := layout_denotes hdigits fun _ => Decimal.isDigit_of_mem_scientific
  refine ⟨text, ?_, hlaid.numeric, ?_⟩
  · rw [formatMagnitude, if_neg hzero, if_pos h, hlaid.layout_eq]
    rfl
  · -- the text and the shortest decimal have one value, and are read alike
    have hvalue := hlaid.value_eq
    rw [Decimal.value_scientific, ← Decimal.value_ratio] at hvalue
    rw [Binary64.nearest_congr (denoted_den_pos text) (Decimal.ratio_den_pos _) hvalue]
    exact Decimal.shortest_readsAs h

/-- The text of a magnitude that is no more than infinity has no sign in front, and a digit there just if the magnitude is
finite. -/
theorem formatMagnitude_first {bits : Nat} (h : bits ≤ Binary64.infinity) : ∃ c cs,
    formatMagnitude bits = .ok (String.ofList (c :: cs)) ∧ c ≠ '-' ∧ (c.isDigit = true ↔ bits < Binary64.infinity) := by
  rcases h.lt_or_eq with hfinite | rfl
  · obtain ⟨text, htext, ⟨⟨d, ds, rfl, hd⟩, -⟩, -⟩ := formatMagnitude_denotes hfinite
    refine ⟨d, ds, htext, ?_, iff_of_true hd hfinite⟩
    rintro rfl
    exact absurd hd (by decide)
  · exact ⟨'I', "nfinity".toList, rfl, by decide, iff_of_false (by decide) (Nat.lt_irrefl _)⟩

/-- No two magnitudes up to infinity have the same text. -/
theorem formatMagnitude_inj {bits bits' : Nat} (h : bits ≤ Binary64.infinity) (h' : bits' ≤ Binary64.infinity)
    (heq : formatMagnitude bits = formatMagnitude bits') : bits = bits' := by
  have hfinite : bits < Binary64.infinity ↔ bits' < Binary64.infinity := by
    obtain ⟨c, cs, htext, -, hc⟩ := formatMagnitude_first h
    obtain ⟨c', cs', htext', -, hc'⟩ := formatMagnitude_first h'
    rw [htext, htext', Except.ok.injEq, String.ofList_inj, List.cons.injEq] at heq
    rw [← hc, ← hc', heq.1]
  rcases h.lt_or_eq with hlt | hinfinity
  · obtain ⟨text, htext, -, hnearest⟩ := formatMagnitude_denotes hlt
    obtain ⟨text', htext', -, hnearest'⟩ := formatMagnitude_denotes (hfinite.1 hlt)
    rw [htext, htext', Except.ok.injEq, String.ofList_inj] at heq
    rw [← hnearest, ← hnearest', heq]
  · omega

end Lox.Number
