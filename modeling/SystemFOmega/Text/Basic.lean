/-!
# Texts and their characters

Parentheses around a text, and the white space at its ends.

A character property of the Unicode standard is kept as the list of the closed ranges of code
points that have it, in increasing order. `inRanges` looks a code point up in such a list and
stops at the first range that lies beyond it.
-/

namespace SystemFOmega.Text

/-! ## Parentheses -/

/-- `s` in parentheses. -/
def parens (s : String) : String := "(" ++ s ++ ")"

/-- `s` in parentheses if `b` holds. -/
def parensIf (b : Bool) (s : String) : String := if b then parens s else s

/-! ## Character properties -/

/-- Whether `n` lies in one of the ranges, which are disjoint and increasing. -/
def inRanges (n : Nat) : List (Nat × Nat) → Bool
  | [] => false
  | (lo, hi) :: rest => decide (lo ≤ n) && (decide (n ≤ hi) || inRanges n rest)

/-- The white space of the Unicode standard. -/
def whiteSpaceRanges : List (Nat × Nat) :=
  [(0x9, 0xD), (0x20, 0x20), (0x85, 0x85), (0xA0, 0xA0), (0x1680, 0x1680), (0x2000, 0x200A),
   (0x2028, 0x2029), (0x202F, 0x202F), (0x205F, 0x205F), (0x3000, 0x3000)]

/-- Whether `c` is white space. -/
def isWhiteSpace (c : Char) : Bool := inRanges c.toNat whiteSpaceRanges

/-- White space or one of the information separators U+001C to U+001F. -/
def isBlank (c : Char) : Bool :=
  isWhiteSpace c || (decide (0x1C ≤ c.toNat) && decide (c.toNat ≤ 0x1F))

/-! ## The ends of a text -/

/-- `cs` without its longest ends on which `p` holds. -/
def trimBy (p : Char → Bool) (cs : List Char) : List Char :=
  ((cs.dropWhile p).reverse.dropWhile p).reverse

/-- `s` without the blanks at its ends. -/
def strip (s : String) : String := String.ofList (trimBy isBlank s.toList)

end SystemFOmega.Text
