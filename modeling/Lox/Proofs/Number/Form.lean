import Lox.Proofs.Number.Denoted

/-!
The forms of the texts of numbers.

* `Number.Whole ds`: digits in front of a point, without a zero too many.
* `Number.Fraction fs`: what stands behind them, nothing or a point and digits of which the last is no zero.
* `Number.PlainForm text`, `Number.ExponentForm text`: plain notation, and notation with an exponent.
* `Number.InPlainRange x`: the number is from `10 ^ -6` on and below `10 ^ 21`.

No text has both forms, since only one of them has a letter. Normal digits are laid out in plain notation if their value is
in its range, and with an exponent else (`layout_is_exact`).
-/

namespace Lox.Number

/-! ## Forms -/

/-- Digits in front of a point: there is at least one, and the first is no zero unless it is the only one. -/
structure Whole (ds : List Char) : Prop where
  ne_nil : ds ≠ []
  isDigit : ∀ c ∈ ds, c.isDigit = true
  leading : ds.head? = some '0' → ds = ['0']

/-- What stands behind the digits in front of a point: nothing, or the point and digits of which the last is no zero. -/
inductive Fraction : List Char → Prop
  | absent : Fraction []
  | present {fs : List Char} : fs ≠ [] → (∀ c ∈ fs, c.isDigit = true) → fs.getLast? ≠ some '0' → Fraction ('.' :: fs)

/-- plain notation: digits, and perhaps a point and digits -/
def PlainForm (text : List Char) : Prop := ∃ ds fs, text = ds ++ fs ∧ Whole ds ∧ Fraction fs

/-- Notation with an exponent: one digit that is no zero, perhaps a point and digits, then the letter, a sign and the digits of
the exponent. -/
def ExponentForm (text : List Char) : Prop := ∃ d fs sign es, text = d :: fs ++ 'e' :: sign :: es ∧
  d.isDigit = true ∧ d ≠ '0' ∧ Fraction fs ∧ (sign = '+' ∨ sign = '-') ∧ Whole es

/-- The number is one of plain notation. -/
def InPlainRange (x : ℚ) : Prop := (10 : ℚ) ^ (-6 : Int) ≤ x ∧ x < (10 : ℚ) ^ (21 : Int)

theorem exponent_notMem_of_isDigit {ds : List Char} (h : ∀ c ∈ ds, c.isDigit = true) : 'e' ∉ ds :=
  fun hmem => absurd (h 'e' hmem) (by decide)

theorem PlainForm.exponent_notMem {text : List Char} (h : PlainForm text) : 'e' ∉ text := by
  obtain ⟨ds, fs, rfl, hwhole, hfraction⟩ := h
  rw [List.mem_append, not_or]
  refine ⟨exponent_notMem_of_isDigit hwhole.isDigit, ?_⟩
  cases hfraction with
  | absent => exact List.not_mem_nil
  | present _ hdigits _ =>
    rw [List.mem_cons, not_or]
    exact ⟨by decide, exponent_notMem_of_isDigit hdigits⟩

theorem ExponentForm.not_plainForm {text : List Char} (h : ExponentForm text) : ¬ PlainForm text := by
  obtain ⟨d, fs, sign, es, rfl, -⟩ := h
  exact fun hplain => hplain.exponent_notMem (List.mem_append_right _ List.mem_cons_self)

/-- The digits of a number have no zero too many. -/
theorem whole_toDigits (n : Nat) : Whole (Nat.toDigits 10 n) where
  ne_nil := Nat.toDigits_ne_nil
  isDigit _ := Nat.isDigit_of_mem_toDigits (by decide) (by decide)
  leading hzero := by
    by_cases hn : n = 0
    · rw [hn, Nat.toDigits_zero]
    · exact absurd hzero (head?_toDigits hn)

/-! ## Layouts -/

section Layouts

variable {s : Scientific} (h : s.Normal)

include h

/-- A text of plain notation has no zero too many. -/
theorem plainForm_of_plainLayout {text : List Char} (hlayout : PlainLayout s text) : PlainForm text := by
  cases hlayout with
  | @whole n _ =>
    refine ⟨_, [], (List.append_nil _).symm, ⟨by simp [h.ne_nil], ?_, fun hzero => ?_⟩, .absent⟩
    · exact List.forall_mem_append.2 ⟨h.isDigit, isDigit_of_mem_zeros⟩
    · obtain ⟨d, ds, heq, -, hne, -⟩ := h.exists_cons
      rw [heq, List.cons_append, List.head?_cons] at hzero
      exact absurd (Option.some.inj hzero) hne
  | @point n _ hpos hlength =>
    refine ⟨_, _, rfl, ⟨?_, fun c hc => h.isDigit c (List.mem_of_mem_take hc), fun hzero => ?_⟩,
      .present ?_ (fun c hc => h.isDigit c (List.mem_of_mem_drop hc)) ?_⟩
    · rw [← List.length_pos_iff, List.length_take]
      omega
    · rw [List.head?_take, if_neg hpos.ne'] at hzero
      exact absurd hzero h.leading
    · rw [← List.length_pos_iff, List.length_drop]
      omega
    · rw [List.getLast?_drop, if_neg (not_le.2 hlength)]
      exact h.trailing
  | @zeros n _ =>
    refine ⟨['0'], _, rfl, ⟨by simp, @isDigit_of_mem_zeros 1, fun _ => rfl⟩, .present (by simp [h.ne_nil]) ?_ ?_⟩
    · exact List.forall_mem_append.2 ⟨isDigit_of_mem_zeros, h.isDigit⟩
    · rw [List.getLast?_append_of_ne_nil _ h.ne_nil]
      exact h.trailing

theorem exponentForm_mantissa {d : Char} {ds : List Char} (heq : s.digits = d :: ds) (e : Int) :
    ExponentForm (mantissaOf d ds ++ 'e' :: suffixOf e) := by
  obtain ⟨d, ds, heq', hd, hne, hds⟩ := h.exists_cons
  obtain ⟨rfl, rfl⟩ := List.cons.inj (heq'.symm.trans heq)
  have hsign : (if e < 0 then '-' else '+') = '+' ∨ (if e < 0 then '-' else '+') = '-' := by
    split
    · exact .inr rfl
    · exact .inl rfl
  unfold mantissaOf suffixOf
  split
  · exact ⟨d, [], _, _, rfl, hd, hne, .absent, hsign, whole_toDigits _⟩
  · rename_i hmore
    have htrailing := h.trailing
    rw [heq, List.getLast?_cons_of_ne_nil hmore] at htrailing
    exact ⟨d, '.' :: ds, _, _, rfl, hd, hne, .present hmore hds htrailing, hsign, whole_toDigits _⟩

/-- The range of plain notation is one of exponents. -/
theorem inPlainRange_iff : InPlainRange s.value ↔ -6 ≤ s.exponent ∧ s.exponent < 21 := by
  rw [InPlainRange, h.pow_le_value_iff, ← not_le, h.pow_le_value_iff, not_le]

end Layouts

/-! ## Numbers -/

/-- What is printed of a positive finite magnitude is a layout of normal digits. -/
theorem formatMagnitude_eq_layout {bits : Nat} (hne : bits ≠ 0) (hfinite : bits < Binary64.infinity) :
    ∃ s : Scientific, s.Normal ∧ -324 ≤ s.exponent ∧ s.exponent ≤ 308 ∧
      formatMagnitude bits = String.ofList <$> layout s := by
  obtain ⟨hlow, hhigh⟩ := exponent_of_finite hne hfinite
  refine ⟨_, Decimal.scientific_normal (Decimal.shortest_coefficient_ne_zero hne), hlow, hhigh, ?_⟩
  rw [formatMagnitude, if_neg hne, if_pos hfinite]

/-- **Numbers are laid out exactly.** Digits without a zero at either end, at any exponent, are laid out without going out of
range, as a text that denotes them. The text is in plain notation just if their value is from `10 ^ -6` on and below
`10 ^ 21`, and has an exponent just if it is not. What is printed of a positive finite magnitude is laid out so, at an
exponent from `-324` to `308`. -/
theorem layout_is_exact :
    (∀ s : Scientific, s.Normal → ∃ text, layout s = .ok text ∧ (denoted text).value = s.value ∧
      (PlainForm text ↔ InPlainRange s.value) ∧ (ExponentForm text ↔ ¬ InPlainRange s.value)) ∧
    ∀ bits : Nat, bits ≠ 0 → bits < Binary64.infinity → ∃ s : Scientific, s.Normal ∧
      -324 ≤ s.exponent ∧ s.exponent ≤ 308 ∧ formatMagnitude bits = String.ofList <$> layout s := by
  refine ⟨fun s h => ?_, fun bits => formatMagnitude_eq_layout⟩
  obtain ⟨text, hlaid⟩ := layout_denotes h.ne_nil h.isDigit
  have hunique : ∀ {text' : List Char}, layout s = .ok text' → text' = text := fun htext =>
    Except.ok.inj (htext.symm.trans hlaid.layout_eq)
  refine ⟨text, hlaid.layout_eq, hlaid.value_eq, ?_⟩
  by_cases hrange : InPlainRange s.value
  · obtain ⟨hlow, hhigh⟩ := (inPlainRange_iff h).1 hrange
    obtain ⟨text', htext, hlayout⟩ := layout_plainLayout h.ne_nil hlow hhigh
    have hplain := plainForm_of_plainLayout h hlayout
    rw [hunique htext] at hplain
    exact ⟨iff_of_true hplain hrange, iff_of_false (fun hform => hform.not_plainForm hplain) (not_not.2 hrange)⟩
  · have hexponent : s.exponent < -6 ∨ 21 ≤ s.exponent := by
      rw [inPlainRange_iff h] at hrange
      omega
    obtain ⟨d, ds, heq, htext⟩ := layout_exponent h.ne_nil hexponent
    have hform := exponentForm_mantissa h heq s.exponent
    rw [hunique htext] at hform
    exact ⟨iff_of_false hform.not_plainForm hrange, iff_of_true hform hrange⟩

/-- Digits on both sides of `10 ^ -6`, and the least magnitude. -/
theorem layout_is_exact_millionth :
    Scientific.Normal ⟨['9', '9'], -7⟩ ∧ layout ⟨['9', '9'], -7⟩ = .ok ['9', '.', '9', 'e', '-', '7'] ∧
    (denoted ['9', '.', '9', 'e', '-', '7']).value = 99 * (10 : ℚ) ^ (-8 : Int) ∧
    ExponentForm ['9', '.', '9', 'e', '-', '7'] ∧
    Scientific.Normal ⟨['1'], -6⟩ ∧ layout ⟨['1'], -6⟩ = .ok ['0', '.', '0', '0', '0', '0', '0', '1'] ∧
    (denoted ['0', '.', '0', '0', '0', '0', '0', '1']).value = 1 * (10 : ℚ) ^ (-6 : Int) ∧
    PlainForm ['0', '.', '0', '0', '0', '0', '0', '1'] ∧
    1 < Binary64.infinity ∧ ∃ s : Scientific, s.Normal ∧
      -324 ≤ s.exponent ∧ s.exponent ≤ 308 ∧ formatMagnitude 1 = String.ofList <$> layout s := by
  have hbelow : Scientific.Normal ⟨['9', '9'], -7⟩ :=
    ⟨by decide, List.all_eq_true.1 (by decide), by decide, by decide⟩
  have hfrom : Scientific.Normal ⟨['1'], -6⟩ := ⟨by decide, List.all_eq_true.1 (by decide), by decide, by decide⟩
  have hfinite : 1 < Binary64.infinity := by decide
  obtain ⟨text, htext, hvalue, -, hform⟩ := layout_is_exact.1 _ hbelow
  obtain ⟨text', htext', hvalue', hform', -⟩ := layout_is_exact.1 _ hfrom
  obtain rfl : ['9', '.', '9', 'e', '-', '7'] = text := Except.ok.inj htext
  obtain rfl : ['0', '.', '0', '0', '0', '0', '0', '1'] = text' := Except.ok.inj htext'
  refine ⟨hbelow, htext, hvalue, hform.2 fun hrange => ?_, hfrom, htext', hvalue', hform'.2 ?_, hfinite,
    layout_is_exact.2 1 (by decide) hfinite⟩
  · exact absurd ((inPlainRange_iff hbelow).1 hrange).1 (by decide)
  · exact (inPlainRange_iff hfrom).2 ⟨by decide, by decide⟩

end Lox.Number
