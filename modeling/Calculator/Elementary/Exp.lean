import Calculator.Elementary.Series
/-!
The exponential. The argument's size is halved until it is at most `1/2`, the Taylor series
is summed there, and the sum is squared once per halving; a negative argument gives the
inverse. The working precision grows with the argument's exponent, since each squaring doubles
the relative error. Arguments with an exponent above `expLimit` overflow: their exponential
lies beyond the exponent limit.
-/

namespace Calculator.Elementary

open Decimal

/-- The largest exponent of an argument of the exponential. -/
def expLimit : Int := 11

/-- One half. -/
def half : Decimal := ⟨5, 1⟩

/-- Halves `r` at precision `w` while it exceeds `bound`, counting the halvings. The fuel is
spent only on arguments that do not fit the callers' bounds. -/
def halveWhileAbove (bound : Decimal) (w : Precision) :
    (fuel : Nat) → (r : Decimal) → (count : Nat) → Except Fault (Decimal × Nat)
  | 0, r, count => .ok (r, count)
  | fuel + 1, r, count =>
    if bound < r then do halveWhileAbove bound w fuel (← r.div 2 w) (count + 1)
    else .ok (r, count)

/-- More halvings than any argument below `10 ^ 12` needs. -/
def halvingFuel : Nat := 64

/-- Squares `s` at precision `w`, `k` times. -/
def squareTimes (w : Precision) : Nat → Decimal → Except Fault Decimal
  | 0, s => .ok s
  | k + 1, s => do squareTimes w k (← s.mul s w)

/-- `exp x` at precision `p`. -/
def exp (x : Decimal) (p : Precision) : Except Fault Decimal := do
  if x.mantissa = 0 then return one
  if expLimit < x.exponent then throw .overflow
  let w := p.widen (guardDigits + 2 * (max x.exponent 0).toNat + 4)
  let (r, halvings) ← halveWhileAbove half w halvingFuel x.abs 0
  -- terms `r ^ n / n!`, each from the one before
  let taylor ← series w (fun n term => do
    let term ← (← term.mul r w).div (ofInt n) w
    pure (term, term)) one one
  let sum ← squareTimes w halvings taylor
  let sum ← if x.isNeg then one.div sum w else pure sum
  finish sum p

/-- Euler's number `e` at precision `p`. -/
def eulerNumber (p : Precision) : Except Fault Decimal := exp one p

end Calculator.Elementary
