/-!
# Blank characters

White space as the `White_Space` property of Unicode: tabs, line ends, spaces of every width and
the two separators. The reader skips it between the items of a list, and raw text is trimmed of it.
-/

namespace InterfaceFile.Text

/-- The code points with the `White_Space` property, as ranges with both ends included. -/
def blankRanges : List (Nat × Nat) :=
  [(0x09, 0x0D), (0x20, 0x20), (0x85, 0x85), (0xA0, 0xA0), (0x1680, 0x1680), (0x2000, 0x200A),
    (0x2028, 0x2029), (0x202F, 0x202F), (0x205F, 0x205F), (0x3000, 0x3000)]

/-- Is the character white space? -/
def isBlank (c : Char) : Bool :=
  blankRanges.any fun (low, high) => low ≤ c.toNat && c.toNat ≤ high

/-- There are twenty-five blank characters. -/
example : (blankRanges.map fun (low, high) => high - low + 1).sum = 25 := by decide

end InterfaceFile.Text
