import Calculator.Elementary.Series
/-!
Square roots. The integer square root comes from Newton's method started above the root,
which decreases until it stops at the floor; two correcting loops after it move the value down,
then up, by ones until it is the floor. A decimal's root is the integer root of its
mantissa shifted left by an even number of places (counting its scale), at least twice the
working precision in digits.
-/

namespace Calculator.Elementary

open Decimal

/-- Newton's steps for `⌊√n⌋` from `y`, a value at or above the root: the next value is
`⌊(y + n / y) / 2⌋`, and the steps stop when it no longer decreases. -/
def newtonRoot (n y : Nat) : Nat :=
  let next := (y + n / y) / 2
  if next < y then newtonRoot n next else y
termination_by y

/-- Lowers `y` by ones while its square exceeds `n`. -/
def lowerToRoot (n y : Nat) : Nat :=
  if n < y * y then lowerToRoot n (y - 1) else y
termination_by y
decreasing_by
  have : 0 < y := Nat.pos_of_ne_zero fun h => by simp [h] at *
  omega

/-- Raises `y` by ones while the square of `y + 1` is at most `n`. -/
def raiseToRoot (n y : Nat) : Nat :=
  if (y + 1) * (y + 1) ≤ n then raiseToRoot n (y + 1) else y
termination_by n + 1 - y
decreasing_by
  have : y + 1 ≤ (y + 1) * (y + 1) := Nat.le_mul_self (y + 1)
  omega

/-- `⌊√n⌋`, starting Newton's method at `2 ^ ⌈bits / 2⌉`, a power of two above the root; the value
it stops on is then corrected down while its square exceeds `n` and up while the next square does
not. -/
def isqrt (n : Nat) : Nat :=
  if n = 0 then 0 else raiseToRoot n (lowerToRoot n (newtonRoot n (Nat.pow 2 ((n.log2 + 2) / 2))))

/-- `√x` at precision `p`; defined for arguments of zero or more. The working precision and the
power of ten that scales the mantissa are 32-bit counts, exact below `2 ^ 31 - 10` digits. -/
def sqrt (x : Decimal) (p : Precision) : Except Fault Decimal := do
  if x.isNeg then throw (.outOfDomain "√" x)
  if x.mantissa = 0 then return zero
  -- the working precision is a 32-bit count, which wraps past the largest one
  let w : Int := low32 (p.digits + guardDigits)
  let shift := max (2 * w - x.digits) 0
  -- the scale of the shifted mantissa must be even, to be halved
  let shift := if (x.scale + shift) % 2 = 0 then shift else shift + 1
  let n := x.mantissa.toNat * pow10Word shift
  finish ⟨isqrt n, wrap64 (x.scale + shift) / 2⟩ p

end Calculator.Elementary
