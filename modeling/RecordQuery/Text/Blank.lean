/-!
# Blank characters

The characters of the Unicode property White_Space, as ranges of code points, and trimming by
them.
-/

namespace RecordQuery.Text

/-- First and last code point of each run of white space, ascending. -/
def blankRanges : List (Nat × Nat) :=
  [(0x09, 0x0D), (0x20, 0x20), (0x85, 0x85), (0xA0, 0xA0), (0x1680, 0x1680), (0x2000, 0x200A),
    (0x2028, 0x2029), (0x202F, 0x202F), (0x205F, 0x205F), (0x3000, 0x3000)]

def isBlank (c : Char) : Bool :=
  blankRanges.any fun range => range.1 ≤ c.toNat && c.toNat ≤ range.2

def skipBlank (s : List Char) : List Char := s.dropWhile isBlank

/-- Drops the white space on both sides. -/
def trim (s : List Char) : List Char := (skipBlank (skipBlank s).reverse).reverse

end RecordQuery.Text
