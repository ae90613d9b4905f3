/-!
Nonnegative fractions, the exact quantities between a decimal numeral and a binary64 number.
A fraction is

* `num`: its numerator,
* `den`: its denominator, positive wherever the library builds one.

Fractions are not reduced: all that is asked of one is its floor, its rounding and the power of a base
below it, and none of these depends on the representative.
-/

namespace Lox

/-- A nonnegative fraction `num / den`. -/
structure Ratio where
  num : Nat
  den : Nat
deriving DecidableEq

namespace Ratio

/-- the fraction times `b ^ e` -/
def scale (b : Nat) (e : Int) (r : Ratio) : Ratio :=
  ⟨r.num * Nat.pow b e.toNat, r.den * Nat.pow b (-e).toNat⟩

/-- the greatest natural number that is at most the fraction -/
def floor (r : Ratio) : Nat := r.num / r.den

/-- The part over the floor is less than one half. -/
def BelowHalf (r : Ratio) : Prop := 2 * (r.num % r.den) < r.den

/-- The part over the floor is exactly one half. -/
def AtHalf (r : Ratio) : Prop := 2 * (r.num % r.den) = r.den

instance (r : Ratio) : Decidable r.BelowHalf := inferInstanceAs (Decidable (_ < _))

instance (r : Ratio) : Decidable r.AtHalf := inferInstanceAs (Decidable (_ = _))

/-- the nearest natural number, a half going to the even one of the two -/
def round (r : Ratio) : Nat :=
  if r.BelowHalf ∨ (r.AtHalf ∧ r.floor % 2 = 0) then r.floor else r.floor + 1

/-- The greatest exponent whose power of `b` is at most the fraction, if that is `e` or one less. -/
def settleLog (b : Nat) (e : Int) (r : Ratio) : Int := if 1 ≤ (r.scale b (-e)).floor then e else e - 1

/-- The exponent of the greatest power of two that is at most the fraction, which is positive. The logarithms of numerator and
denominator give it up to one. -/
def floorLog2 (r : Ratio) : Int := r.settleLog 2 ((r.num.log2 : Int) - r.den.log2)

/-- how many decimal digits a number has -/
def width (n : Nat) : Nat := (Nat.toDigits 10 n).length

/-- The exponent of the greatest power of ten that is at most the fraction, which is positive. The widths of numerator and
denominator give it up to one. -/
def floorLog10 (r : Ratio) : Int := r.settleLog 10 ((width r.num : Int) - width r.den)

end Ratio

end Lox
