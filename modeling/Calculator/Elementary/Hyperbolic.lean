import Calculator.Elementary.Exp
/-!
Hyperbolic functions. Below one in size, the hyperbolic sine is summed from its Taylor series,
which avoids the cancellation in `(e^x - e^-x)/2`; elsewhere both functions come from `e^x`
and its inverse. The hyperbolic tangent is their quotient, and it is `±1` once `|x|` exceeds
the working precision in digits, where `e^-2|x|` no longer shows.
-/

namespace Calculator.Elementary

open Decimal

/-- `sinh x` at working precision `w` from its Taylor series. -/
def sinhSeries (x : Decimal) (w : Precision) : Except Fault Decimal := do
  let x2 ← x.mul x w
  series w (fun n term => do
    let term ← (← term.mul x2 w).div (ofInt (2 * n * (2 * n + 1))) w
    pure (term, term)) x x

/-- `e^x` and `e^-x` at working precision `w`. -/
def expPair (x : Decimal) (w : Precision) : Except Fault (Decimal × Decimal) := do
  let ep ← exp x w
  let em ← one.div ep w
  return (ep, em)

/-- `sinh x` at working precision `w`, not rounded further. -/
def sinhWorking (x : Decimal) (w : Precision) : Except Fault Decimal := do
  if x.abs < one then return ← sinhSeries x w
  let (ep, em) ← expPair x w
  (← ep.sub em w).div 2 w

/-- `cosh x` at working precision `w`, not rounded further. -/
def coshWorking (x : Decimal) (w : Precision) : Except Fault Decimal := do
  let (ep, em) ← expPair x w
  (← ep.add em w).div 2 w

/-- The hyperbolic sine at precision `p`. -/
def sinh (x : Decimal) (p : Precision) : Except Fault Decimal := do
  if x.mantissa = 0 then return zero
  finish (← sinhWorking x (p.widen guardDigits)) p

/-- The hyperbolic cosine at precision `p`. -/
def cosh (x : Decimal) (p : Precision) : Except Fault Decimal := do
  if x.mantissa = 0 then return one
  finish (← coshWorking x (p.widen guardDigits)) p

/-- The hyperbolic tangent at precision `p`. -/
def tanh (x : Decimal) (p : Precision) : Except Fault Decimal := do
  if x.mantissa = 0 then return zero
  let w := p.widen guardDigits
  if ofInt w.digits < x.abs then return if x.isNeg then -one else one
  let s ← sinhWorking x w
  let c ← coshWorking x w
  finish (← s.div c w) p

end Calculator.Elementary
