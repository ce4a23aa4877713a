import Calculator.Text.CodeRanges
/-!
Blanks: the characters of the Unicode property White_Space, which an expression may hold
anywhere and which are skipped. Besides the ASCII blanks these are the next line control, the
no-break spaces, the ogham space mark, the typographic spaces, the line and paragraph
separators and the ideographic space.
-/

namespace Calculator.Text

/-- The ranges of code points with the property White_Space, in increasing order. -/
def blankRanges : List (Nat × Nat) :=
  [(0x9, 0xd), (0x20, 0x20), (0x85, 0x85), (0xa0, 0xa0), (0x1680, 0x1680), (0x2000, 0x200a),
   (0x2028, 0x2029), (0x202f, 0x202f), (0x205f, 0x205f), (0x3000, 0x3000)]

/-- Whether `c` has the Unicode property White_Space. -/
def isBlank (c : Char) : Bool := inRanges blankRanges c.toNat

end Calculator.Text
