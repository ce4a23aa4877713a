import Calculator.Decimal.Round
import Calculator.Fault
/-!
Arithmetic at a precision. Each operation forms its result, rounds it to the precision (a half
away from zero) and refuses a nonzero result whose exponent exceeds `exponentLimit` in size.
-/

namespace Calculator

namespace Decimal

/-- The largest size of the exponent of a nonzero result. -/
def exponentLimit : Nat := 1000000000000

/-- The decimal itself when it is zero or its exponent is within the limit, else an overflow.
The size of the exponent is taken as a word, so an exponent of `int64Min` passes. -/
def checked (x : Decimal) : Except Fault Decimal :=
  if x.mantissa ≠ 0 ∧ (exponentLimit : Int) < wrappingAbs x.exponent then .error .overflow
  else .ok x

/-- The exact sum, formed at the larger of the two scales (each mantissa brought there by a
power of ten whose count is read as a word). -/
def exactAdd (x y : Decimal) : Decimal :=
  let s := max x.scale y.scale
  ⟨x.mantissa * (pow10Word (s - x.scale) : Int) + y.mantissa * (pow10Word (s - y.scale) : Int), s⟩

/-- The sum at precision `p`. -/
def add (x y : Decimal) (p : Precision) : Except Fault Decimal :=
  if x.mantissa = 0 then (y.round p).checked
  else if y.mantissa = 0 then (x.round p).checked
  else
    let ex := x.exponent
    let ey := y.exponent
    let (big, bigExp, small, smallExp) := if ey ≤ ex then (x, ex, y, ey) else (y, ey, x, ex)
    let floor := min (wrap64 (bigExp - p.digits - 3)) (wrap64 (-big.scale - 1))
    -- an addend below `floor` only tips the rounding: a unit of its sign at `floor` does too
    let small : Decimal := if smallExp < floor then ⟨small.mantissa.sign, wrap64 (-floor)⟩ else small
    ((exactAdd big small).round p).checked

/-- The difference at precision `p`. -/
def sub (x y : Decimal) (p : Precision) : Except Fault Decimal := x.add (-y) p

/-- The product at precision `p`. -/
def mul (x y : Decimal) (p : Precision) : Except Fault Decimal :=
  (Decimal.round ⟨x.mantissa * y.mantissa, wrap64 (x.scale + y.scale)⟩ p).checked

/-- The quotient at precision `p`, with trailing zeros removed down to the scale
`x.scale - y.scale`. The power of ten that widens the dividend reads its count as a word, which
is exact while `p` plus the excess of digits of `y` over `x` stays below `2 ^ 32 - 2`. -/
def div (x y : Decimal) (p : Precision) : Except Fault Decimal :=
  if y.mantissa = 0 then .error .divisionByZero
  else if x.mantissa = 0 then .ok zero
  else
    -- at least `p + 1` digits of the quotient: the first one dropped decides the rounding
    let k : Int := max 0 ((p.digits : Int) + 2 + y.digits - x.digits)
    let preferred := wrap64 (x.scale - y.scale)
    -- past `2 ^ 32` digits the power reads only the low bits of `k`; the scale keeps all of `k`
    let q : Decimal := ⟨(x.mantissa * (pow10Word k : Int)).tdiv y.mantissa, wrap64 (preferred + k)⟩
    ((q.round p).stripZerosTo preferred).checked

end Decimal

end Calculator
