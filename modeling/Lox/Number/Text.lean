import Lox.Number.Decimal
import Lox.Range

/-!
The text of numbers, read and written.

* `Numeral.value?`: the number a numeral `digits` or `digits.digits` denotes, correctly rounded.
* `Number.layout`: the text of the digits `d₁ d₂ … dₙ` at exponent `e`, that is of `d₁.d₂…dₙ * 10 ^ e`. Below
  `10 ^ 21` and from `10 ^ -6` on the notation is plain, elsewhere it has an exponent.
* `Number.format`: the text of a number, its shortest digits laid out. Both zeros are `0`.

Digits are cut and zeros are counted with a check, so a layout can go out of range.
-/

namespace Lox

namespace Numeral

/-- the digits of a numeral before its point -/
def whole (s : List Char) : List Char := s.takeWhile (· ≠ '.')

/-- the digits of a numeral after its point -/
def fraction (s : List Char) : List Char := (s.dropWhile (· ≠ '.')).drop 1

/-- the fraction a numeral denotes -/
def ratio (s : List Char) : Ratio :=
  ⟨Nat.ofDigitChars 10 (whole s ++ fraction s) 0, Nat.pow 10 (fraction s).length⟩

/-- the number nearest to what a numeral denotes -/
def value (s : List Char) : Float := Binary64.ofRatio (ratio s)

/-- The text is a numeral: digits, of which there is at least one, with at most one point before, among or after them. -/
def WellFormed (s : List Char) : Prop := whole s ++ fraction s ≠ [] ∧ ∀ c ∈ whole s ++ fraction s, c.isDigit

-- The instance is named: an instance search may decide this over all characters there are, not those of the list.
instance (s : List Char) : Decidable (WellFormed s) :=
  @instDecidableAnd _ _ inferInstance (List.decidableBAll _ _)

/-- the number a text is read as, if it is a numeral -/
def value? (s : List Char) : Option Float := if WellFormed s then some (value s) else none

end Numeral

/-- Significant digits `d₁ d₂ … dₙ` and the exponent of the first, for `d₁.d₂…dₙ * 10 ^ exponent`. -/
structure Scientific where
  digits : List Char
  exponent : Int
deriving DecidableEq

/-- the digits of a decimal without the zeros that end them -/
def Decimal.scientific (d : Decimal) : Scientific :=
  let digits := Nat.toDigits 10 d.coefficient
  ⟨(digits.reverse.dropWhile (· = '0')).reverse, d.exponent + digits.length - 1⟩

namespace Number

/-- plain notation ends where this many digits stand before the point -/
def plainWhole : Int := 21

/-- plain notation ends where this many zeros stand between the point and the first digit -/
def plainZeros : Int := 6

/-- the text of digits at an exponent -/
def layout (s : Scientific) : Except OutOfRange (List Char) :=
  let point := s.exponent + 1
  let count : Int := s.digits.length
  if count ≤ point ∧ point ≤ plainWhole then do
    let zeros ← Range.copies (point - count) '0'
    pure (s.digits ++ zeros)
  else if 0 < point ∧ point ≤ plainWhole then do
    let (whole, fraction) ← Range.splitAt s.digits point.toNat
    pure (whole ++ '.' :: fraction)
  else if -plainZeros < point ∧ point ≤ 0 then do
    let zeros ← Range.copies (-point) '0'
    pure ('0' :: '.' :: (zeros ++ s.digits))
  else do
    let sign := if s.exponent < 0 then '-' else '+'
    let (first, rest) ← Range.splitAt s.digits 1
    let fraction := if rest = [] then [] else '.' :: rest
    pure (first ++ fraction ++ 'e' :: sign :: Nat.toDigits 10 s.exponent.natAbs)

/-- the text of a magnitude: zero, a positive number, infinity, or no number at all -/
def formatMagnitude (bits : Nat) : Except OutOfRange String :=
  if bits = 0 then .ok "0"
  else if bits < Binary64.infinity then String.ofList <$> layout (Decimal.shortest bits).scientific
  else if bits = Binary64.infinity then .ok "Infinity"
  else .ok "NaN"

/-- the text of a number; a zero and what is no number have no sign -/
def format (x : Float) : Except OutOfRange String := do
  let bits := Binary64.magnitude x
  let text ← formatMagnitude bits
  let signed := Binary64.negative x && 0 < bits && bits ≤ Binary64.infinity
  pure (if signed then "-" ++ text else text)

/-- the text of a number, which never goes out of range -/
def text (x : Float) : String := (format x).toOption.getD ""

end Number

end Lox
