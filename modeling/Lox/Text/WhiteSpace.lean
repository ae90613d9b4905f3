/-!
The characters with the Unicode property `White_Space`, and texts without them at their end.
-/

namespace Lox

/-- the first and last code point of each range of white space -/
def whiteSpaceRanges : List (Nat × Nat) :=
  [(0x09, 0x0D), (0x20, 0x20), (0x85, 0x85), (0xA0, 0xA0), (0x1680, 0x1680), (0x2000, 0x200A), (0x2028, 0x2029),
    (0x202F, 0x202F), (0x205F, 0x205F), (0x3000, 0x3000)]

/-- The character is white space. -/
def isWhiteSpace (c : Char) : Bool := whiteSpaceRanges.any fun r => r.1 ≤ c.toNat && c.toNat ≤ r.2

/-- a text without the white space it ends with -/
def trimmedEnd (s : String) : String := String.ofList (s.toList.reverse.dropWhile isWhiteSpace).reverse

end Lox
