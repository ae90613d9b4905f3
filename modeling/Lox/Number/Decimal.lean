import Lox.Number.Binary64

/-!
Decimals, and the shortest decimal that reads back as a binary64 magnitude.

A decimal is

* `coefficient`: a natural number,
* `exponent`: the power of ten it counts.

`shortest` looks at the two neighbours of a magnitude among the decimals of one digit, then of two, and so on to
seventeen, and takes the first that reads back; of two neighbours it tries the nearer one first, the upper one
if they are equally near. `exact` has all the digits of the magnitude and reads back in any case.
-/

namespace Lox

/-- The decimal `coefficient * 10 ^ exponent`. -/
structure Decimal where
  coefficient : Nat
  exponent : Int
deriving DecidableEq

namespace Decimal

/-- the fraction a decimal stands for -/
def ratio (d : Decimal) : Ratio := Ratio.scale 10 d.exponent ⟨d.coefficient, 1⟩

/-- The decimal reads back as the magnitude `bits`. -/
def ReadsAs (d : Decimal) (bits : Nat) : Prop := Binary64.nearest d.ratio = bits

instance (d : Decimal) (bits : Nat) : Decidable (d.ReadsAs bits) := inferInstanceAs (Decidable (_ = _))

/-- the two neighbours of a fraction among the decimals that count `10 ^ k`, the nearer one first -/
def neighbours (r : Ratio) (k : Int) : List Decimal :=
  let s := r.scale 10 (-k)
  let low : Decimal := ⟨s.floor, k⟩
  let high : Decimal := ⟨s.floor + 1, k⟩
  if s.BelowHalf then [low, high] else [high, low]

/-- the decimal equal to a fraction whose denominator is a power of two -/
def exact (r : Ratio) : Decimal :=
  let k := r.den.log2
  ⟨r.num * Nat.pow 5 k, -k⟩

/-- the most digits a shortest decimal needs -/
def maxDigits : Nat := 17

/-- the decimal with the fewest digits that reads back as a positive finite magnitude -/
def shortest (bits : Nat) : Decimal :=
  let r := Binary64.ratio bits
  let top := r.floorLog10
  let candidates := (List.range maxDigits).flatMap fun (n : Nat) => neighbours r (top - n)
  (candidates.find? fun d => d.ReadsAs bits).getD (exact r)

end Decimal

end Lox
