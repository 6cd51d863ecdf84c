/-!
# Blank characters

The characters of the Unicode property White_Space, and the removal of a text's blank margins.
-/

namespace TensorLowering

/-- The ranges of the property, by first and last code point. -/
def blankRanges : List (Nat × Nat) :=
  [(0x0009, 0x000D), (0x0020, 0x0020), (0x0085, 0x0085), (0x00A0, 0x00A0), (0x1680, 0x1680),
    (0x2000, 0x200A), (0x2028, 0x2029), (0x202F, 0x202F), (0x205F, 0x205F), (0x3000, 0x3000)]

/-- Whether a character is blank. -/
def isBlank (ch : Char) : Bool :=
  blankRanges.any fun (first, last) => first ≤ ch.toNat && ch.toNat ≤ last

/-- The characters between the blank margins. -/
def trimBlank (chars : List Char) : List Char :=
  (((chars.dropWhile isBlank).reverse).dropWhile isBlank).reverse

end TensorLowering
