/-!
# Blank characters

The characters that count as white space in a setting, ASCII or not, and the text that is left when
they are cut off at both ends.
-/

namespace EffectLoop.Text

/-- The ranges of the characters that count as white space. -/
def blankRanges : List (Nat × Nat) :=
  [(0x09, 0x0d), (0x20, 0x20), (0x85, 0x85), (0xa0, 0xa0), (0x1680, 0x1680), (0x2000, 0x200a),
   (0x2028, 0x2029), (0x202f, 0x202f), (0x205f, 0x205f), (0x3000, 0x3000)]

/-- Whether a character counts as white space. -/
def isBlank (c : Char) : Bool := blankRanges.any fun r => r.1 ≤ c.toNat && c.toNat ≤ r.2

/-- Cut off the blanks at both ends. -/
def trimChars (cs : List Char) : List Char :=
  ((cs.dropWhile isBlank).reverse.dropWhile isBlank).reverse

/-- Cut off the blanks at both ends. -/
def trim (s : String) : String := String.ofList (trimChars s.toList)

end EffectLoop.Text
