import Lox.Proofs.Expr.Canonical
import Lox.Proofs.Number.Layout
import Lox.Proofs.Number.Pattern
import Lox.Proofs.Session.Outcome
import Lox.Proofs.Token.Respelling

/-!
Printed numbers are read back. In plain notation a number is printed as a numeral, with a minus sign in front of it if the
number is negative.

* `numeralToken text`: the token that a numeral is.
* `Signed x`: the number is negative, and not zero.
* `readBack x`: the number, and the positive zero for the negative one.

A numeral is one token, and evaluates to the number nearest to what it denotes; with a minus sign, to the negative of that.
-/

namespace Lox

/-! ## Numerals as sources -/

/-- the token that a numeral is -/
def numeralToken (text : List Char) : Token := ⟨.number, String.ofList text, some (.number (Numeral.value text)), 1⟩

section Numerals

variable {text : List Char}

theorem numeralToken_derives {r : Expr.Rung} (text : List Char) :
    Expr.Derives r [numeralToken text] (.literal (.number (Numeral.value text))) :=
  (Expr.Derives.constant rfl).mono r.rank_le_eight

variable (h : Rule.Matches .number text)

include h

theorem count_newline_numeral : text.count '\n' = 0 :=
  List.count_eq_zero.2 (h.newline_notMem (by simp) (by simp))

theorem cut_numeral : Span.cut text = [⟨.rule .number, text⟩] := by
  have hcut := @Span.cut_of_munches ⟨.rule .number, text⟩ [] (by simpa using Span.munches_alone h)
  simpa [Span.cut] using hcut

/-- A numeral is one token. -/
theorem scan_numeral : scan (String.ofList text) = ⟨[numeralToken text, Token.endOn 1], [], none⟩ := by
  rw [scan_eq, String.toList_ofList, cut_numeral h, count_newline_numeral h]
  rfl

/-- A minus sign in front of a numeral is one token more. -/
theorem scan_minus_numeral : scan ("-" ++ String.ofList text) =
    ⟨[⟨.minus, "-", none, 1⟩, numeralToken text, Token.endOn 1], [], none⟩ := by
  have hequal : ¬ ((operatorEqual? '-').isSome ∧ text.head? = some '=') := by
    rintro ⟨hsome, -⟩
    exact absurd hsome (by decide)
  have hminus := @Span.cut_of_munches ⟨.rule .operator, ['-']⟩ text
    (Span.munches_operator (by decide) (by simp) hequal)
  have hlist : ("-" ++ String.ofList text).toList = ['-'] ++ text := by simp
  have hcount : (['-'] ++ text).count '\n' = 0 := by
    rw [List.count_append, count_newline_numeral h]
    rfl
  rw [scan_eq, hlist, hcount, hminus, cut_numeral h]
  rfl

theorem evaluate_numeral (env : Env) :
    evaluate (String.ofList text) env = ⟨.ok (.number (Numeral.value text)), env, #[], ⟨[], []⟩⟩ := by
  have hwhole : WholeExpression (String.ofList text) (.literal (.number (Numeral.value text))) := by
    rw [WholeExpression, scan_numeral h]
    exact ⟨rfl, [numeralToken text], 1, rfl, numeralToken_derives text⟩
  rw [evaluate, hwhole.parse_eq]
  rfl

theorem evaluate_minus_numeral (env : Env) : evaluate ("-" ++ String.ofList text) env =
    ⟨.ok (.number (-Numeral.value text)), env, #[], ⟨[], []⟩⟩ := by
  have hwhole : WholeExpression ("-" ++ String.ofList text)
      (.unary ⟨.minus, "-", none, 1⟩ (.literal (.number (Numeral.value text)))) := by
    rw [WholeExpression, scan_minus_numeral h]
    refine ⟨rfl, [⟨.minus, "-", none, 1⟩, numeralToken text], 1, rfl, ?_⟩
    exact (Expr.Derives.prefixed (.inr rfl) (numeralToken_derives text)).mono (by decide)
  rw [evaluate, hwhole.parse_eq]
  rfl

end Numerals

/-! ## Printed numbers -/

open Binary64

variable {v : Float}

/-- The number is negative, and not zero. -/
def Signed (x : Float) : Prop := negative x = true ∧ magnitude x ≠ 0

/-- A number is printed as its magnitude, with a minus sign if it is signed. -/
theorem display_number {text : String} (h : Number.formatMagnitude (magnitude v) = .ok text)
    (hv : magnitude v ≤ infinity) :
    (Signed v → (Value.number v).display = "-" ++ text) ∧ (¬ Signed v → (Value.number v).display = text) := by
  have hsigned : (negative v && 0 < magnitude v && magnitude v ≤ infinity) = true ↔ Signed v := by
    simp only [Bool.and_eq_true, decide_eq_true_eq, Signed, hv, and_true, Nat.pos_iff_ne_zero]
  have hformat : Number.format v = .ok
      (if negative v && 0 < magnitude v && magnitude v ≤ infinity then "-" ++ text else text) := by
    unfold Number.format
    dsimp only
    rw [h]
    rfl
  have hdisplay : (Value.number v).display =
      if negative v && 0 < magnitude v && magnitude v ≤ infinity then "-" ++ text else text := by
    rw [Value.display, Value.format, hformat]
    rfl
  rw [hdisplay]
  exact ⟨fun hv => if_pos (hsigned.2 hv), fun hv => if_neg (mt hsigned.1 hv)⟩

/-- The magnitude of a number that is zero or in the plain range. -/
theorem magnitude_of_plain (hv : v == 0 ∨ (1e-6 : Float) ≤ v.abs ∧ v.abs < 1e21) :
    magnitude v = 0 ∨ Number.leastPlain ≤ magnitude v ∧ magnitude v < Number.leastLarge := by
  rcases hv with hzero | ⟨hlow, hhigh⟩
  · left
    rcases (Float.beq_iff_ne_nan_and_eq.1 hzero).2.2 with rfl | ⟨rfl, -⟩ | ⟨rfl, -⟩ <;> decide +kernel
  · right
    have hleast : magnitude 1e-6 = Number.leastPlain := by decide +kernel
    have hlarge : magnitude 1e21 = Number.leastLarge := by decide +kernel
    have hlt := magnitude_lt_of_abs_lt (by decide +kernel) (by decide +kernel) hhigh
    rw [hlarge] at hlt
    have hle := magnitude_le_of_le_abs (by decide +kernel) (by decide +kernel) (hlt.le.trans (by decide)) hlow
    rw [hleast] at hle
    exact ⟨hle, hlt⟩

theorem value_eq_ofMagnitude {text : List Char} {m : Nat} (h : nearest (Numeral.ratio text) = m) :
    Numeral.value text = ofMagnitude m := by
  rw [Numeral.value, ofRatio, h]
  rfl

/-! ## Numbers that are read back -/

/-- the number, and the positive zero for the negative one -/
def readBack (x : Float) : Float := if x.toBits = 0x8000000000000000 then 0 else x

theorem readBack_of_ne_zero (h : magnitude v ≠ 0) : readBack v = v :=
  if_neg fun hbits => h (toBits_eq_signBit_iff.1 hbits).2

theorem ofMagnitude_of_not_signed (h : ¬ Signed v) : ofMagnitude (magnitude v) = readBack v := by
  by_cases hbits : v.toBits = 0x8000000000000000
  · rw [readBack, if_pos hbits, (toBits_eq_signBit_iff.1 hbits).2]
    decide +kernel
  · have hnegative : negative v = false := by
      by_contra hnegative
      rw [Bool.not_eq_false] at hnegative
      exact h ⟨hnegative, fun hzero => hbits (toBits_eq_signBit_iff.2 ⟨hnegative, hzero⟩)⟩
    rw [readBack, if_neg hbits, ofMagnitude_of_not_negative hnegative]

/-- What is read back is equal to the number, if that is one. -/
theorem readBack_beq (h : magnitude v ≤ infinity) : (readBack v == v) = true := by
  by_cases hbits : v.toBits = 0x8000000000000000
  · have hv : v = -0 := Float.toBits_inj.1 (hbits.trans (by decide +kernel))
    rw [readBack, if_pos hbits, hv]
    decide +kernel
  · rw [readBack, if_neg hbits]
    refine Float.beq_self_iff.2 ?_
    rintro rfl
    exact absurd h (by decide +kernel)

/-- **A printed number reads back as itself.** Let a number be zero, or from `10 ^ -6` on and below `10 ^ 21` but for its
sign. In every environment its text evaluates to the number itself, with the same bits, or to the positive zero if it is the
negative one; this is equal to the number. There is no report, and the environment is left as it was. If the number is not
less than zero, its text is one token. -/
theorem printed_number_reads_back (hv : v == 0 ∨ (1e-6 : Float) ≤ v.abs ∧ v.abs < 1e21) :
    (∀ env : Env, evaluate (Value.number v).display env = ⟨.ok (.number (readBack v)), env, #[], ⟨[], []⟩⟩) ∧
    (readBack v == v) = true ∧
    (0 ≤ v → scan (Value.number v).display =
      ⟨[⟨.number, (Value.number v).display, some (.number (readBack v)), 1⟩, Token.endOn 1], [], none⟩) := by
  have hplain := magnitude_of_plain hv
  have hfinite : magnitude v < infinity := by
    unfold Number.leastLarge at hplain
    unfold infinity
    omega
  obtain ⟨text, hformat, hmatches, hnearest⟩ := Number.formatMagnitude_plain hplain
  have hvalue := value_eq_ofMagnitude hnearest
  obtain ⟨hminus, hbare⟩ := display_number hformat hfinite.le
  by_cases hsigned : Signed v
  · obtain ⟨hnegative, hne⟩ := hsigned
    refine ⟨fun env => ?_, readBack_beq hfinite.le, fun hnonneg => ?_⟩
    · rw [hminus ⟨hnegative, hne⟩, evaluate_minus_numeral hmatches, hvalue,
        neg_ofMagnitude_of_negative hnegative hfinite.le, readBack_of_ne_zero hne]
    · rw [not_negative_of_nonneg hfinite hne hnonneg] at hnegative
      cases hnegative
  · have hread : Numeral.value text = readBack v := hvalue.trans (ofMagnitude_of_not_signed hsigned)
    rw [hbare hsigned]
    refine ⟨fun env => ?_, readBack_beq hfinite.le, fun _ => ?_⟩
    · rw [evaluate_numeral hmatches, hread]
    · rw [scan_numeral hmatches, numeralToken, hread]

/-- A tenth, and a small negative number. -/
theorem printed_number_reads_back_tenth :
    (1e-6 : Float) ≤ (0.1 : Float).abs ∧ (0.1 : Float).abs < 1e21 ∧ (0 : Float) ≤ 0.1 ∧
    (Value.number 0.1).display = "0.1" ∧ scan "0.1" = ⟨[⟨.number, "0.1", some (.number 0.1), 1⟩, Token.endOn 1], [], none⟩ ∧
    (1e-6 : Float) ≤ (-0.000125 : Float).abs ∧ (-0.000125 : Float).abs < 1e21 ∧
    (Value.number (-0.000125)).display = "-0.000125" ∧
    ∀ env : Env, evaluate "-0.000125" env = ⟨.ok (.number (-0.000125)), env, #[], ⟨[], []⟩⟩ := by
  have hlow : (1e-6 : Float) ≤ (0.1 : Float).abs := by decide +kernel
  have hhigh : (0.1 : Float).abs < 1e21 := by decide +kernel
  have hlow' : (1e-6 : Float) ≤ (-0.000125 : Float).abs := by decide +kernel
  have hhigh' : (-0.000125 : Float).abs < 1e21 := by decide +kernel
  have hnonneg : (0 : Float) ≤ 0.1 := by decide +kernel
  have htext : (Value.number 0.1).display = "0.1" := by decide +kernel
  have htext' : (Value.number (-0.000125)).display = "-0.000125" := by decide +kernel
  obtain ⟨-, -, hscan⟩ := printed_number_reads_back (.inr ⟨hlow, hhigh⟩)
  obtain ⟨hevaluate, -, -⟩ := printed_number_reads_back (.inr ⟨hlow', hhigh'⟩)
  have hread : readBack 0.1 = 0.1 := by decide +kernel
  have hread' : readBack (-0.000125) = -0.000125 := by decide +kernel
  rw [htext, hread] at hscan
  rw [htext', hread'] at hevaluate
  exact ⟨hlow, hhigh, hnonneg, htext, hscan hnonneg, hlow', hhigh', htext', hevaluate⟩

end Lox
