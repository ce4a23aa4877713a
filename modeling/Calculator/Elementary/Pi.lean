import Calculator.Elementary.Series
/-!
π by Machin's formula `π = 16·arctan(1/5) - 4·arctan(1/239)`, in integers scaled by
`10 ^ (p + guardDigits)`: each term of each arctangent series is truncated, and a series stops
at its first zero term. The scaled sum, read with `p + guardDigits` places, is rounded to `p`
digits.
-/

namespace Calculator.Elementary

open Decimal

/-- `scale · arctan (1 / q)` from its series `Σ (-1)^k / ((2k+1) q^(2k+1))`, each term
truncated, up to the first term that truncates to zero. `qPow` is `q ^ (2k+1)`. -/
def arctanInverseFrom (q scale : Nat) (hq : 2 ≤ q) (k qPow : Nat) (sum : Int) : Int :=
  let term := scale / (qPow * (2 * k + 1))
  if term = 0 then sum
  else
    arctanInverseFrom q scale hq (k + 1) (qPow * (q * q))
      (if k % 2 = 0 then sum + term else sum - term)
termination_by scale + 1 - qPow
decreasing_by
  rename_i nonzero
  -- a nonzero term has a divisor that is positive and at most `scale`
  have hdiv : ¬(qPow * (2 * k + 1) = 0 ∨ scale < qPow * (2 * k + 1)) :=
    fun h => nonzero (Nat.div_eq_zero_iff.2 h)
  have hprod : 0 < qPow * (2 * k + 1) := by omega
  have hpos : 0 < qPow := Nat.pos_of_mul_pos_right hprod
  have hgrow : qPow * 4 ≤ qPow * (q * q) := Nat.mul_le_mul_left qPow (Nat.mul_le_mul hq hq)
  have hk : qPow ≤ qPow * (2 * k + 1) := Nat.le_mul_of_pos_right qPow (by omega)
  omega

/-- `scale · arctan (1 / q)`, each term of the series truncated. -/
def arctanInverse (q scale : Nat) (hq : 2 ≤ q) : Int := arctanInverseFrom q scale hq 0 q 0

/-- π rounded to `p` digits. The series runs on `p + 10` decimal places, whose unit is a power of
ten that reads its count as a word: below `2 ^ 32 - 10` digits this is π itself. -/
def pi (p : Precision) : Decimal :=
  let places := p.digits + guardDigits
  -- the unit reads only the low 32 bits of its count; the scale of the result keeps all of it
  let scale := pow10Word places
  let a := arctanInverse 5 scale (by decide)
  let b := arctanInverse 239 scale (by decide)
  Decimal.round ⟨16 * a - 4 * b, places⟩ p

end Calculator.Elementary
