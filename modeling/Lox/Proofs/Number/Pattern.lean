import Mathlib
import Lox.Number.Binary64

/-!
Numbers and their patterns.

* `Binary64.significand m`, `Binary64.exponent m`: the parts of a finite magnitude.
* `Binary64.parts s m`: what a sign and a magnitude stand for.
* `Binary64.sign x`: the sign of a number.

A number stands for its sign and its magnitude (`unpack_eq`). So its absolute value and its negative have the same
magnitude, and numbers that are not negative are in the order of their magnitudes.
-/

namespace Lox.Binary64

open Float.Model UnpackedFloat

/-! ## Parts -/

/-- the significand of a finite magnitude -/
def significand (m : Nat) : Nat := if m < hiddenBit then m else hiddenBit + m % hiddenBit

/-- the exponent of the unit that a finite magnitude counts -/
def exponent (m : Nat) : Int := if m < hiddenBit then minExponent else minExponent + (m / hiddenBit - 1 : Nat)

theorem significand_pos {m : Nat} (h : m ≠ 0) : 0 < significand m := by
  unfold significand hiddenBit
  split <;> omega

/-- A greater magnitude has a greater exponent, or the same one and a greater significand. -/
theorem lex_of_lt {m n : Nat} (h : m < n) :
    exponent m < exponent n ∨ exponent m = exponent n ∧ significand m < significand n := by
  unfold exponent significand hiddenBit minExponent
  split_ifs <;> omega

/-- what a sign and a magnitude stand for -/
def parts (s : Sign) (m : Nat) : UnpackedFloat :=
  if h : m = 0 then .zero s
  else if m < infinity then .finite s (significand m) (exponent m) (significand_pos h)
  else if m = infinity then .infinity s
  else .notANumber

variable {s : Sign} {m n : Nat}

theorem parts_zero : parts s 0 = .zero s := rfl

theorem parts_finite (hne : m ≠ 0) (h : m < infinity) :
    parts s m = .finite s (significand m) (exponent m) (significand_pos hne) := by
  rw [parts, dif_neg hne, if_pos h]

theorem parts_infinity : parts s infinity = .infinity s := rfl

theorem parts_of_gt (h : infinity < m) : parts s m = .notANumber := by
  rw [parts, dif_neg (by omega), if_neg (by omega), if_neg (by omega)]

theorem parts_neg : (parts s m).neg = parts (-s) m := by
  unfold parts
  split_ifs <;> rfl

theorem parts_abs : (parts s m).abs = parts .positive m := by
  unfold parts
  split_ifs <;> rfl

theorem compare_finite (m n : Nat) :
    (compare (exponent m) (exponent n)).then (compare (significand m) (significand n)) = compare m n := by
  rcases Nat.lt_trichotomy m n with h | rfl | h
  · rw [Nat.compare_eq_lt.2 h]
    rcases lex_of_lt h with he | ⟨he, hs⟩
    · rw [Int.compare_eq_lt.2 he]
      rfl
    · rw [Int.compare_eq_eq.2 he, Nat.compare_eq_lt.2 hs]
      rfl
  · rw [Int.compare_eq_eq.2 rfl, Nat.compare_eq_eq.2 rfl, Nat.compare_eq_eq.2 rfl]
    rfl
  · rw [Nat.compare_eq_gt.2 h]
    rcases lex_of_lt h with he | ⟨he, hs⟩
    · rw [Int.compare_eq_gt.2 he]
      rfl
    · rw [Int.compare_eq_eq.2 he.symm, Nat.compare_eq_gt.2 hs]
      rfl

/-- What is not negative is in the order of the magnitudes. -/
theorem compare_parts (hm : m ≤ infinity) (hn : n ≤ infinity) :
    (parts .positive m).compare (parts .positive n) = some (compare m n) := by
  have hcases : ∀ {k : Nat}, k ≤ infinity → k = 0 ∨ (k ≠ 0 ∧ k < infinity) ∨ k = infinity := by omega
  have hlt : ∀ {i j : Nat}, i < j → some Ordering.lt = some (compare i j) := fun h => by rw [Nat.compare_eq_lt.2 h]
  have hgt : ∀ {i j : Nat}, j < i → some Ordering.gt = some (compare i j) := fun h => by rw [Nat.compare_eq_gt.2 h]
  have hpos : 0 < infinity := by decide
  rcases hcases hm with rfl | ⟨hm₀, hm⟩ | rfl <;> rcases hcases hn with rfl | ⟨hn₀, hn⟩ | rfl
  · rfl
  · rw [parts_finite hn₀ hn]
    exact hlt (Nat.pos_of_ne_zero hn₀)
  · exact hlt hpos
  · rw [parts_finite hm₀ hm]
    exact hgt (Nat.pos_of_ne_zero hm₀)
  · rw [parts_finite hm₀ hm, parts_finite hn₀ hn]
    exact congrArg some (compare_finite m n)
  · rw [parts_finite hm₀ hm]
    exact hlt hm
  · exact hgt hpos
  · rw [parts_finite hn₀ hn]
    exact hgt hn
  · rfl

/-! ## Patterns -/

/-- the sign of a number -/
def sign (x : Float) : Sign := if negative x then .negative else .positive

theorem toNat_unpackExponent (b : BitVec 64) :
    (@unpackExponent Format.binary64 b).toNat = b.toNat % signBit / hiddenBit := by
  rw [unpackExponent_def, BitVec.extractLsb'_toNat]
  simp only [Nat.shiftRight_eq_div_pow, signBit, hiddenBit]
  omega

theorem toNat_unpackMantissa (b : BitVec 64) :
    (@unpackMantissa Format.binary64 b).toNat = b.toNat % signBit % hiddenBit := by
  rw [unpackMantissa_def, BitVec.extractLsb'_toNat]
  simp only [Nat.shiftRight_eq_div_pow, signBit, hiddenBit]
  omega

theorem toNat_unpackSign (b : BitVec 64) : (@unpackSign Format.binary64 b).toNat = b.toNat / signBit := by
  rw [unpackSign_def, BitVec.extractLsb'_toNat]
  simp only [Nat.shiftRight_eq_div_pow, signBit]
  omega

theorem toNat_hidden_append (f : BitVec 52) : (1#1 ++ f).toNat = hiddenBit + f.toNat := by
  have hor := Nat.two_pow_add_eq_or_of_lt f.isLt 1
  rw [BitVec.toNat_append, hiddenBit]
  simp at hor ⊢
  omega

section Fields

variable (b : BitVec 64)

theorem ofBitVec_unpackSign : Sign.ofBitVec (@unpackSign Format.binary64 b) =
    if signBit ≤ b.toNat then .negative else .positive := by
  have htoNat := toNat_unpackSign b
  have hlt := b.isLt
  have hzero : @unpackSign Format.binary64 b = 0#1 ↔ ¬ signBit ≤ b.toNat := by
    rw [← BitVec.toNat_inj, htoNat]
    unfold signBit
    simp only [BitVec.toNat_ofNat]
    omega
  unfold Sign.ofBitVec
  split_ifs with h h' h'
  · exact absurd h' (hzero.1 h)
  · rfl
  · rfl
  · exact absurd (hzero.2 h') h

theorem unpackExponent_eq_ones_iff :
    @unpackExponent Format.binary64 b = -1#11 ↔ infinity ≤ b.toNat % signBit := by
  rw [← BitVec.toNat_inj, toNat_unpackExponent]
  unfold infinity hiddenBit signBit
  simp
  omega

theorem unpackExponent_eq_zero_iff :
    @unpackExponent Format.binary64 b = 0#11 ↔ b.toNat % signBit < hiddenBit := by
  rw [← BitVec.toNat_inj, toNat_unpackExponent]
  unfold hiddenBit
  simp

theorem unpackMantissa_eq_zero_iff :
    @unpackMantissa Format.binary64 b = 0#52 ↔ b.toNat % signBit % hiddenBit = 0 := by
  rw [← BitVec.toNat_inj, toNat_unpackMantissa]
  simp

end Fields

/-- A pattern stands for its sign and its magnitude. -/
theorem unpack_pattern (b : BitVec 64) : unpack Format.binary64 b =
    parts (if signBit ≤ b.toNat then .negative else .positive) (b.toNat % signBit) := by
  have hexponent := toNat_unpackExponent b
  have hmantissa := toNat_unpackMantissa b
  have hones := unpackExponent_eq_ones_iff b
  have hexponent₀ := unpackExponent_eq_zero_iff b
  have hmantissa₀ := unpackMantissa_eq_zero_iff b
  have hlt : b.toNat % signBit < signBit := Nat.mod_lt _ (by decide)
  rw [← ofBitVec_unpackSign]
  unfold UnpackedFloat.unpack
  dsimp only
  generalize b.toNat % signBit = m at *
  generalize Sign.ofBitVec (@unpackSign Format.binary64 b) = s
  by_cases hinfinity : infinity ≤ m
  · rw [if_pos (hones.2 hinfinity)]
    rcases hinfinity.eq_or_lt with rfl | hnan
    · rw [if_pos (hmantissa₀.2 (by decide)), parts_infinity]
    · have hne : m % hiddenBit ≠ 0 := by
        unfold infinity hiddenBit signBit at *
        omega
      rw [if_neg (mt hmantissa₀.1 hne), parts_of_gt hnan]
  rw [if_neg (mt hones.1 hinfinity)]
  by_cases hsubnormal : m < hiddenBit
  · rw [if_pos (hexponent₀.2 hsubnormal)]
    rw [Nat.mod_eq_of_lt hsubnormal] at hmantissa hmantissa₀
    by_cases hzero : m = 0
    · subst hzero
      rw [dif_pos (hmantissa₀.2 rfl), parts_zero]
    · rw [dif_neg (mt hmantissa₀.1 hzero), parts_finite hzero (not_le.1 hinfinity)]
      simp only [finite.injEq, true_and, significand, exponent, if_pos hsubnormal]
      refine ⟨hmantissa, ?_⟩
      rw [hexponent, Nat.div_eq_of_lt hsubnormal]
      rfl
  · have hpos : 0 < m / hiddenBit := Nat.div_pos (not_lt.1 hsubnormal) (by decide)
    have hne : m ≠ 0 := by
      rintro rfl
      exact hsubnormal (by decide)
    rw [if_neg (mt hexponent₀.1 hsubnormal), parts_finite hne (not_le.1 hinfinity)]
    simp only [finite.injEq, true_and, significand, exponent, if_neg hsubnormal]
    refine ⟨?_, ?_⟩
    · rw [toNat_hidden_append, hmantissa]
    · have hbias : ((Format.binary64.exponentBias : Nat) : Int) = 1023 := rfl
      rw [hexponent, hbias]
      unfold minExponent
      omega

/-- A number stands for its sign and its magnitude. -/
theorem unpack_eq (x : Float) : x.toModel.unpack = parts (sign x) (magnitude x) := by
  have hsign : sign x = if signBit ≤ x.toBits.toNat then .negative else .positive := by
    unfold sign negative
    simp
  rw [hsign]
  exact unpack_pattern x.toBits.toBitVec

/-! ## Numbers of a magnitude -/

variable {x y : Float}

theorem magnitude_le_of_isNaN (h : x.isNaN = false) : magnitude x ≤ infinity := by
  by_contra hgt
  have hnan : x.toModel.unpack = .notANumber := by rw [unpack_eq, parts_of_gt (not_le.1 hgt)]
  have hisNaN : x.isNaN = x.toModel.unpack.isNaN := rfl
  rw [hisNaN, hnan] at h
  cases h

theorem sign_of_not_negative (h : negative x = false) : sign x = .positive := by rw [sign, h]; rfl

theorem sign_of_negative (h : negative x = true) : sign x = .negative := by rw [sign, h]; rfl

/-- What a number stands for is packed as the number. -/
theorem ofModel_pack_unpack (x : Float) : Float.ofModel (Float.Model.pack x.toModel.unpack) = x := Float.ofBits_toBits x

/-- The negative of a number is the number of the same magnitude and the other sign. -/
theorem neg_eq (hsign : sign y = -sign x) (hmagnitude : magnitude y = magnitude x) : -x = y := by
  show Float.ofModel (Float.Model.pack x.toModel.unpack.neg) = y
  rw [unpack_eq, parts_neg, ← hsign, ← hmagnitude, ← unpack_eq, ofModel_pack_unpack]

/-- A pattern whose magnitude is finite or infinity is that of its number. -/
theorem toBits_ofBits {b : UInt64} (h : b.toNat % signBit ≤ infinity) : (Float.ofBits b).toBits = b := by
  have hvalid : Format.binary64.Valid b.toBitVec := by
    refine ⟨fun hones hmantissa => ?_⟩
    have hle : infinity ≤ b.toNat % signBit := (unpackExponent_eq_ones_iff b.toBitVec).1 hones
    have hzero : b.toNat % signBit % hiddenBit = 0 := by
      rw [Nat.le_antisymm h hle]
      decide
    exact absurd ((unpackMantissa_eq_zero_iff b.toBitVec).2 hzero) hmantissa
  exact congrArg Float.toBits (Float.ofBits_toBits (Float.ofModel ⟨b, hvalid⟩))

/-- the number of a magnitude that is not negative -/
def ofMagnitude (m : Nat) : Float := Float.ofBits (UInt64.ofNat m)

theorem toBits_ofMagnitude (h : m ≤ infinity) : (ofMagnitude m).toBits.toNat = m := by
  have hm : (UInt64.ofNat m).toNat = m := by
    rw [UInt64.toNat_ofNat']
    unfold infinity at h
    omega
  rw [ofMagnitude, toBits_ofBits, hm]
  rw [hm]
  exact (Nat.mod_le _ _).trans h

theorem magnitude_ofMagnitude (h : m ≤ infinity) : magnitude (ofMagnitude m) = m := by
  rw [magnitude, toBits_ofMagnitude h]
  unfold infinity signBit at *
  omega

theorem negative_ofMagnitude (h : m ≤ infinity) : negative (ofMagnitude m) = false := by
  unfold negative
  rw [toBits_ofMagnitude h]
  unfold infinity signBit at *
  exact decide_eq_false (by omega)

/-- A number that is not negative is that of its magnitude. -/
theorem ofMagnitude_of_not_negative (h : negative x = false) : ofMagnitude (magnitude x) = x := by
  have hlt : x.toBits.toNat < signBit := not_le.1 (of_decide_eq_false h)
  rw [ofMagnitude, magnitude, Nat.mod_eq_of_lt hlt, UInt64.ofNat_toNat, Float.ofBits_toBits]

/-- A negative number is the negative of that of its magnitude. -/
theorem neg_ofMagnitude_of_negative (h : negative x = true) (hx : magnitude x ≤ infinity) :
    -ofMagnitude (magnitude x) = x := by
  refine neg_eq ?_ (magnitude_ofMagnitude hx).symm
  rw [sign_of_negative h, sign_of_not_negative (negative_ofMagnitude hx)]
  rfl

theorem toBits_eq_signBit_iff : x.toBits = 0x8000000000000000 ↔ negative x = true ∧ magnitude x = 0 := by
  have hlt := x.toBits.toNat_lt
  rw [← UInt64.toNat_inj, negative, decide_eq_true_iff, magnitude]
  show x.toBits.toNat = signBit ↔ _
  unfold signBit
  omega

/-! ## Order -/

theorem unpack_abs (x : Float) : x.abs.toModel.unpack = parts .positive (magnitude x) := by
  have habs : x.abs.toModel = Float.Model.pack (parts .positive (magnitude x)) := by
    show Float.Model.pack x.toModel.unpack.abs = _
    rw [unpack_eq, parts_abs]
  rcases le_or_gt (magnitude x) infinity with hx | hnan
  · have hparts := unpack_eq (ofMagnitude (magnitude x))
    rw [sign_of_not_negative (negative_ofMagnitude hx), magnitude_ofMagnitude hx] at hparts
    have hpack : Float.Model.pack (ofMagnitude (magnitude x)).toModel.unpack = (ofMagnitude (magnitude x)).toModel :=
      congrArg Float.toModel (ofModel_pack_unpack _)
    rw [habs, ← hparts, hpack]
  · rw [habs, parts_of_gt hnan]
    exact unpack_packedNaN

theorem lt_iff_compare : x < y ↔ x.toModel.unpack.compare y.toModel.unpack = some .lt := by
  show decide (x.toModel < y.toModel) = true ↔ _
  rw [decide_eq_true_iff]
  exact beq_iff_eq

theorem le_iff_compare :
    x ≤ y ↔ (x.toModel.unpack.compare y.toModel.unpack).any (fun order => order.isLE) = true := by
  show decide (x.toModel ≤ y.toModel) = true ↔ _
  rw [decide_eq_true_iff]
  rfl

/-- What is less than a number has a lesser magnitude, if the number is not negative. -/
theorem magnitude_lt_of_abs_lt (hy : negative y = false) (hy' : magnitude y ≤ infinity) (h : x.abs < y) :
    magnitude x < magnitude y := by
  rw [lt_iff_compare, unpack_abs, unpack_eq y, sign_of_not_negative hy] at h
  rcases le_or_gt (magnitude x) infinity with hx | hnan
  · rw [compare_parts hx hy', Option.some_inj] at h
    exact Nat.compare_eq_lt.1 h
  · rw [parts_of_gt hnan] at h
    cases h

theorem magnitude_le_of_le_abs (hy : negative y = false) (hy' : magnitude y ≤ infinity) (hx : magnitude x ≤ infinity)
    (h : y ≤ x.abs) : magnitude y ≤ magnitude x := by
  rw [le_iff_compare, unpack_abs, unpack_eq y, sign_of_not_negative hy, compare_parts hy' hx] at h
  exact Nat.isLE_compare.1 h

/-- What is at least zero is not negative, unless it is a zero. -/
theorem not_negative_of_nonneg (hx : magnitude x < infinity) (hne : magnitude x ≠ 0) (h : 0 ≤ x) : negative x = false := by
  by_contra hnegative
  have hzero : (0 : Float).toModel.unpack = .zero .positive := unpack_eq 0
  rw [Bool.not_eq_false] at hnegative
  rw [le_iff_compare, hzero, unpack_eq x, sign_of_negative hnegative, parts_finite hne hx] at h
  cases h

end Lox.Binary64
