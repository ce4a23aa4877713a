import Calculator.Elementary.Exp
/-!
Logarithms. Near one, `ln r = 2·artanh z` with `z = (r - 1)/(r + 1)`, whose series
`Σ z^(2n+1)/(2n+1)` converges fast. Further away, `x = m · 10^k` with `1 ≤ m < 10`, `m` is
halved `j` times into `(3/4, 3/2]`, and `ln x = ln m' + j·ln 2 + k·ln 10`, with
`ln 10 = 3·ln 2 + ln (5/4)`. The decimal logarithm divides by `ln 10`.
-/

namespace Calculator.Elementary

open Decimal

/-- Three halves. -/
def threeHalves : Decimal := ⟨15, 1⟩

/-- `ln r` at working precision `w` by the series of `2·artanh ((r - 1)/(r + 1))`. -/
def lnSeries (r : Decimal) (w : Precision) : Except Fault Decimal := do
  let z ← (← r.sub one w).div (← r.add one w) w
  if z.mantissa = 0 then return zero
  let z2 ← z.mul z w
  -- the state is `z ^ (2n+1)`, the term `z ^ (2n+1) / (2n+1)`
  let sum ← series w (fun n power => do
    let power ← power.mul z2 w
    let term ← power.div (ofInt (2 * n + 1)) w
    pure (power, term)) z z
  sum.mul 2 w

/-- `ln 2` at working precision `w`. -/
def lnTwo (w : Precision) : Except Fault Decimal := lnSeries 2 w

/-- `ln 10 = 3·ln 2 + ln (5/4)` at working precision `w`. -/
def lnTen (w : Precision) : Except Fault Decimal := do
  let threeLnTwo ← (← lnTwo w).mul 3 w
  threeLnTwo.add (← lnSeries ⟨125, 2⟩ w) w

/-- `ln x` of a positive `x` at working precision `w`, not rounded further. -/
def lnPositive (x : Decimal) (w : Precision) : Except Fault Decimal := do
  if x.sameValue one then return zero
  -- near one the series applies directly, with no cancellation
  if half < x ∧ x < threeHalves then return ← lnSeries x w
  let k := x.exponent
  let w := w.widen (digitCount k.natAbs)
  let (m, j) ← halveWhileAbove threeHalves w halvingFuel (x.shift (-k)) 0
  let res ← lnSeries m w
  let res ← if j ≠ 0 then res.add (← (← lnTwo w).mul (ofInt j) w) w else pure res
  if k ≠ 0 then res.add (← (← lnTen w).mul (ofInt k) w) w else pure res

/-- The natural logarithm at precision `p`; defined for positive arguments. -/
def ln (x : Decimal) (p : Precision) : Except Fault Decimal := do
  if x.sign ≤ 0 then throw (.outOfDomain "ln" x)
  finish (← lnPositive x (p.widen guardDigits)) p

/-- The decimal logarithm at precision `p`; defined for positive arguments. -/
def log10 (x : Decimal) (p : Precision) : Except Fault Decimal := do
  if x.sign ≤ 0 then throw (.outOfDomain "log" x)
  let w := p.widen guardDigits
  let num ← lnPositive x w
  finish (← num.div (← lnTen w) w) p

end Calculator.Elementary
