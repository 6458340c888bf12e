namespace Columnar.Text

/-!
White space and trimming.

A character is blank when Unicode gives it the property White_Space; `trim` drops blank
characters at both ends of a text and keeps those inside.
-/

/-- The code points with the Unicode property White_Space, as inclusive ranges. -/
def blankRanges : List (Nat × Nat) :=
  [(0x09, 0x0D), (0x20, 0x20), (0x85, 0x85), (0xA0, 0xA0), (0x1680, 0x1680), (0x2000, 0x200A),
    (0x2028, 0x2029), (0x202F, 0x202F), (0x205F, 0x205F), (0x3000, 0x3000)]

def isBlank (char : Char) : Bool :=
  blankRanges.any fun range => range.1 ≤ char.toNat && char.toNat ≤ range.2

/-- Drops what satisfies the test at both ends. -/
def trimEnds (drops : Char → Bool) (chars : List Char) : List Char :=
  ((chars.dropWhile drops).reverse.dropWhile drops).reverse

def trim (text : String) : String := String.ofList (trimEnds isBlank text.toList)

end Columnar.Text
