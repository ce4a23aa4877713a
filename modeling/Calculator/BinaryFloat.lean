/-!
Binary floating point, as far as counting digits uses it. A binary64 number has 53 significant
bits, and an operation on such numbers gives its exact result rounded to 53 bits: to the nearest
number that has them, a tie going to the one whose last bit is even. The values met here are
natural numbers times powers of two far inside the exponent range, so only the significant bits
round: a natural number becomes binary64 by `roundToBits binary64Bits`, and a product of two
such numbers is rounded the same way.
-/

namespace Calculator

/-- The significant bits of a binary64 number. -/
def binary64Bits : Nat := 53

/-- `n` rounded to `bits` significant bits: to the nearest multiple of the unit of its last kept
bit, a tie going to the multiple whose last kept bit is even. -/
def roundToBits (bits n : Nat) : Nat :=
  let unit := Nat.pow 2 (n.log2 + 1 - bits)
  let q := n / unit
  let r := n % unit
  -- past half a unit, or at half a unit above an odd last bit, the rounding goes up
  if unit < 2 * r ∨ (unit = 2 * r ∧ q % 2 = 1) then (q + 1) * unit else q * unit

end Calculator
