import Lox.Number.Ratio

/-!
The magnitudes of binary64, as the sixty-three low bits of the pattern.

A magnitude below `infinity` stands for a fraction: its high part `bits / 2 ^ 52` is the biased exponent, its
low part `bits % 2 ^ 52` the fraction field, and the significand has its hidden bit unless the exponent
field is zero. Read as numbers, the patterns are in the order of the fractions they stand for.

* `ratio`: the fraction a magnitude stands for.
* `nearest`: the magnitude nearest to a fraction, a tie going to the even pattern.
-/

namespace Lox.Binary64

/-- the magnitude of the infinities; the larger ones are not numbers -/
def infinity : Nat := 0x7FF0000000000000

/-- the weight of the sign bit, `2 ^ 63` -/
def signBit : Nat := 0x8000000000000000

/-- the weight of the exponent field, and of the hidden bit of a significand, `2 ^ 52` -/
def hiddenBit : Nat := 0x10000000000000

/-- the exponent of the least unit, that of the significands whose exponent field is zero or one -/
def minExponent : Int := -1074

/-- the fraction a finite magnitude stands for -/
def ratio (bits : Nat) : Ratio :=
  if bits < hiddenBit then Ratio.scale 2 minExponent ⟨bits, 1⟩
  else Ratio.scale 2 (minExponent + (bits / hiddenBit - 1 : Nat)) ⟨hiddenBit + bits % hiddenBit, 1⟩

/-- The magnitude nearest to a fraction. The significand is the fraction in units of `2 ^ q`, where `q` leaves it
fifty-three bits, or is least. Its hidden bit, added to the exponent field one below, gives the pattern; so
does a significand rounded up to the next power of two. -/
def nearest (r : Ratio) : Nat :=
  if r.num = 0 then 0
  else
    let q := max minExponent (r.floorLog2 - 52)
    min infinity ((q - minExponent).toNat * hiddenBit + (r.scale 2 (-q)).round)

/-- the nonnegative number nearest to a fraction -/
def ofRatio (r : Ratio) : Float := Float.ofBits (UInt64.ofNat (nearest r))

/-- what stands for no number -/
def nan : Float := Float.ofBits 0x7FF8000000000000

/-- the magnitude of a number -/
def magnitude (x : Float) : Nat := x.toBits.toNat % signBit

/-- The sign bit of a number is set. -/
def negative (x : Float) : Bool := signBit ≤ x.toBits.toNat

end Lox.Binary64
