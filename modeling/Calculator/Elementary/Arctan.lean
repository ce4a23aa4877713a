import Calculator.Elementary.Pi
import Calculator.Elementary.Sqrt
/-!
Inverse circular functions. The arctangent takes `|x|` into `[0, 1]` by `arctan x =
π/2 - arctan (1/x)`, then halves the angle by `arctan a = 2·arctan (a / (1 + √(1 + a²)))`
until `a ≤ 1/10`, and sums the series `Σ (-1)^n a^(2n+1)/(2n+1)`. The arcsine is
`arctan (x / √(1 - x²))`, and the arccosine `2·arctan √((1 - x)/(1 + x))`, which has no
cancellation near `x = 1`.
-/

namespace Calculator.Elementary

open Decimal

/-- One tenth. -/
def tenth : Decimal := ⟨1, 1⟩

/-- Halves the angle of `a` at working precision `w` while `a` exceeds a tenth, counting the
halvings. From `a ≤ 1` four halvings suffice; the fuel is far above. -/
def halveAngle (w : Precision) : (fuel : Nat) → (a : Decimal) → (count : Nat) →
    Except Fault (Decimal × Nat)
  | 0, a, count => .ok (a, count)
  | fuel + 1, a, count =>
    if tenth < a then do
      let square ← a.mul a w
      let root ← sqrt (← one.add square w) w
      halveAngle w fuel (← a.div (← one.add root w) w) (count + 1)
    else .ok (a, count)

/-- More angle halvings than any argument of at most one needs. -/
def angleFuel : Nat := 64

/-- `arctan x` at working precision `w`, not rounded further. -/
def arctanWorking (x : Decimal) (w : Precision) : Except Fault Decimal := do
  if x.mantissa = 0 then return zero
  let inverted := one < x.abs
  let a ← if inverted then one.div x.abs w else pure x.abs
  let (a, doublings) ← halveAngle w angleFuel a 0
  let a2 ← a.mul a w
  -- the state is `(-1)^n a^(2n+1)`, the term that over `2n+1`
  let sum ← series w (fun n power => do
    let power := -(← power.mul a2 w)
    let term ← power.div (ofInt (2 * n + 1)) w
    pure (power, term)) a a
  let res ← sum.mul (ofInt (Nat.pow 2 doublings)) w
  let res ← if inverted then do (← (pi w).div 2 w).sub res w else pure res
  return if x.isNeg then -res else res

/-- The arctangent at precision `p`. -/
def arctan (x : Decimal) (p : Precision) : Except Fault Decimal := do
  finish (← arctanWorking x (p.widen guardDigits)) p

/-- `arcsin x` for `|x| ≤ 1` at working precision `w`, not rounded further. -/
def arcsinWorking (x : Decimal) (w : Precision) : Except Fault Decimal := do
  if x.abs.sameValue one then
    let halfPi ← (pi w).div 2 w
    return if x.isNeg then -halfPi else halfPi
  let square ← x.mul x w
  let c ← sqrt (← one.sub square w) w
  arctanWorking (← x.div c w) w

/-- The arcsine at precision `p`; defined on `[-1, 1]`. -/
def arcsin (x : Decimal) (p : Precision) : Except Fault Decimal := do
  if one < x.abs then throw (.outOfDomain "arcsin" x)
  finish (← arcsinWorking x (p.widen guardDigits)) p

/-- The arccosine at precision `p`; defined on `[-1, 1]`. -/
def arccos (x : Decimal) (p : Precision) : Except Fault Decimal := do
  if one < x.abs then throw (.outOfDomain "arccos" x)
  if x.sameValue one then return zero
  if x.sameValue (-one) then return ← finish (pi (p.widen guardDigits)) p
  let w := p.widen guardDigits
  let q ← (← one.sub x w).div (← one.add x w) w
  let halfAngle ← arctanWorking (← sqrt q w) w
  finish (← halfAngle.mul 2 w) p

end Calculator.Elementary
