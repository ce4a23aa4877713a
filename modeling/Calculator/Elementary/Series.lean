import Calculator.Decimal.Arith
/-!
What the elementary functions share: a working precision with guard digits, the last step
that rounds a working value to the asked precision, and the summing of a series at the working
precision until a term no longer shows in the sum.
-/

namespace Calculator.Elementary

open Decimal

/-- Guard digits: the functions work at the asked precision plus these. -/
def guardDigits : Nat := 10

/-- A value at the asked precision: rounded, with its trailing zeros removed down to the units
(`√4` is `2`, not `2.000…`), and checked against the exponent limit. -/
def finish (x : Decimal) (p : Precision) : Except Fault Decimal :=
  ((x.round p).stripZerosTo 0).checked

/-- Whether `term` no longer shows in `sum` at working precision `w`. -/
def negligible (term sum : Decimal) (w : Precision) : Bool :=
  term.mantissa == 0 ||
    (sum.mantissa != 0 && term.exponent < wrap64 (sum.exponent - w.digits - 1))

/-- Fuel for a series at working precision `w`: more terms than any series here takes. -/
def seriesFuel (w : Precision) : Nat := 4 * w.digits + 100

/-- Sums a series at working precision `w`. The step `next n state` gives the `n`-th state
and term from the one before; the sum stops before the first negligible term. -/
def sumSeries (w : Precision) (next : Nat → Decimal → Except Fault (Decimal × Decimal)) :
    (fuel n : Nat) → (state sum : Decimal) → Except Fault Decimal
  | 0, _, _, sum => .ok sum
  | fuel + 1, n, state, sum => do
    let (state, term) ← next n state
    if negligible term sum w then .ok sum
    else sumSeries w next fuel (n + 1) state (← sum.add term w)

/-- Sums a series at working precision `w` from its first state and first term, which is also
the first sum; the steps start at `1`. -/
def series (w : Precision) (next : Nat → Decimal → Except Fault (Decimal × Decimal))
    (start : Decimal) (first : Decimal) : Except Fault Decimal :=
  sumSeries w next (seriesFuel w) 1 start first

end Calculator.Elementary
