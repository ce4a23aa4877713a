/-!
Sets of code points given as tables of closed ranges in increasing order, as the Unicode
character properties are published. Membership walks the table and stops at the first range
that does not lie below the code point.
-/

namespace Calculator.Text

/-- Whether `n` lies in one of the closed ranges, which are listed in increasing order. -/
def inRanges : List (Nat × Nat) → Nat → Bool
  | [], _ => false
  | (lo, hi) :: rest, n => if n < lo then false else if n ≤ hi then true else inRanges rest n

end Calculator.Text
