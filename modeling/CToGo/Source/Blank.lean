/-!
# Blank characters

The characters that may stand between tokens are those with the Unicode property
`White_Space`. Letters and digits of words and literals are those of ASCII.
-/

namespace CToGo.Source

/-- The ranges of the property `White_Space`, in increasing order. -/
def blankRanges : List (Nat × Nat) :=
  [(0x09, 0x0D), (0x20, 0x20), (0x85, 0x85), (0xA0, 0xA0), (0x1680, 0x1680),
    (0x2000, 0x200A), (0x2028, 0x2029), (0x202F, 0x202F), (0x205F, 0x205F), (0x3000, 0x3000)]

/-- Whether the character has the property `White_Space`. -/
def isBlank (c : Char) : Bool :=
  blankRanges.any fun (low, high) => low ≤ c.toNat && c.toNat ≤ high

/-- Whether a word may begin with the character. -/
def isWordStart (c : Char) : Bool := c.isAlpha || c == '_'

/-- Whether a word may go on with the character. -/
def isWordRest (c : Char) : Bool := c.isAlphanum || c == '_'

end CToGo.Source
