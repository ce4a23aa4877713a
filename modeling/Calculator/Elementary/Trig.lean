import Calculator.Elementary.Pi
/-!
Sine, cosine and tangent. The argument is reduced by the nearest multiple of `2π` (with π at
the working precision), and the Taylor series are summed at the reduced argument. Reduction
costs as many digits of π as the argument has before its point, so the working precision grows
with the exponent, and arguments with an exponent above `trigLimit` overflow.
-/

namespace Calculator.Elementary

open Decimal

/-- The largest exponent of an argument of the circular functions. -/
def trigLimit : Int := 1000

/-- The working precision for a circular function of `x` at precision `p`. -/
def trigPrecision (x : Decimal) (p : Precision) : Except Fault Precision :=
  if trigLimit < x.exponent then .error .overflow
  else .ok (p.widen (guardDigits + (max (x.exponent + 1) 0).toNat))

/-- `x - 2π·q` for `q` the nearest integer to `x / 2π`, at working precision `w`. -/
def reduceAngle (x : Decimal) (w : Precision) : Except Fault Decimal := do
  let twoPi ← (pi w).mul 2 w
  let q := (← x.div twoPi w).nearest
  if q = 0 then return x
  x.sub (← (ofInt q).mul twoPi w) w

/-- `sin r` at working precision `w` from its Taylor series. -/
def sinSeries (r : Decimal) (w : Precision) : Except Fault Decimal := do
  if r.mantissa = 0 then return zero
  let r2 ← r.mul r w
  series w (fun n term => do
    let term := -(← (← term.mul r2 w).div (ofInt (2 * n * (2 * n + 1))) w)
    pure (term, term)) r r

/-- `cos r` at working precision `w` from its Taylor series. -/
def cosSeries (r : Decimal) (w : Precision) : Except Fault Decimal := do
  let r2 ← r.mul r w
  series w (fun n term => do
    let term := -(← (← term.mul r2 w).div (ofInt ((2 * n - 1) * (2 * n))) w)
    pure (term, term)) one one

/-- The sine at precision `p`. -/
def sin (x : Decimal) (p : Precision) : Except Fault Decimal := do
  if x.mantissa = 0 then return zero
  let w ← trigPrecision x p
  finish (← sinSeries (← reduceAngle x w) w) p

/-- The cosine at precision `p`. -/
def cos (x : Decimal) (p : Precision) : Except Fault Decimal := do
  if x.mantissa = 0 then return one
  let w ← trigPrecision x p
  finish (← cosSeries (← reduceAngle x w) w) p

/-- The tangent at precision `p`, as the quotient of the two series. -/
def tan (x : Decimal) (p : Precision) : Except Fault Decimal := do
  if x.mantissa = 0 then return zero
  let w ← trigPrecision x p
  let r ← reduceAngle x w
  let s ← sinSeries r w
  let c ← cosSeries r w
  finish (← s.div c w) p

end Calculator.Elementary
