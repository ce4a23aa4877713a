import Calculator.Elementary.Log
/-!
Powers and factorials. An integer exponent of at most `integerPowerLimit` in size is done by
repeated squaring, with as many guard digits more as the exponent has digits; a negative one
inverts the result. The exponent is a 64-bit integer and its size is taken as a word, so
`int64Min`, whose size wraps to itself, is done by repeated squaring too. Any other exponent goes through `exp (y · ln |x|)`, where a negative base
needs an integer exponent and takes the sign of its parity. A factorial multiplies its factors
in order, rounding each product.
-/

namespace Calculator.Elementary

open Decimal

/-- The largest size of an exponent done by repeated squaring. -/
def integerPowerLimit : Nat := 999999999

/-- Multiplies `acc` by `b ^ e` at precision `w` by repeated squaring, least bit first. -/
def powerLoop (w : Precision) (e : Nat) (acc b : Decimal) : Except Fault Decimal :=
  if e = 0 then .ok acc
  else do
    let acc ← if e % 2 = 1 then acc.mul b w else pure acc
    let b ← if e / 2 > 0 then b.mul b w else pure b
    powerLoop w (e / 2) acc b
termination_by e

/-- `x ^ n` for an integer `n` at precision `p`. -/
def integerPower (x : Decimal) (n : Int) (p : Precision) : Except Fault Decimal := do
  if n = 0 then return one
  if x.mantissa = 0 then
    if n < 0 then throw .divisionByZero else return zero
  let w := p.widen (guardDigits + digitCount n.natAbs)
  let acc ← powerLoop w n.natAbs one x
  if n < 0 then one.div acc p else (acc.round p).checked

/-- `x ^ y` at precision `p`. -/
def power (x y : Decimal) (p : Precision) : Except Fault Decimal := do
  if let some n := y.toInt64? then
    if wrappingAbs n ≤ integerPowerLimit then return ← integerPower x n p
  if x.mantissa = 0 then
    if y.isNeg then throw .divisionByZero else return zero
  if x.isNeg ∧ !y.isInteger then throw (.outOfDomain "^" x)
  let extra := (min (max y.exponent 0) (expLimit + 1)).toNat
  let w := p.widen (guardDigits + extra + 3)
  let product ← y.mul (← lnPositive x.abs w) w
  let r ← exp product p
  return if x.isNeg ∧ y.isOddInteger then -r else r

/-- Multiplies `acc` by the factors `next, next + 1, …, next + count - 1` at precision `w`. -/
def multiplyFactors (w : Precision) : (count next : Nat) → (acc : Decimal) → Except Fault Decimal
  | 0, _, acc => .ok acc
  | count + 1, next, acc => do multiplyFactors w count (next + 1) (← acc.mul (ofInt next) w)

/-- `n!` at precision `p`, with as many guard digits more as `n` has digits. -/
def factorial (n : Nat) (p : Precision) : Except Fault Decimal := do
  let w := p.widen (guardDigits + digitCount n)
  let acc ← multiplyFactors w (n - 1) 2 one
  (acc.round p).checked

end Calculator.Elementary
