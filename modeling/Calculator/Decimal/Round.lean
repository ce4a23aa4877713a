import Calculator.Decimal.Basic
/-!
Rounding a decimal to a number of significant digits, a half going away from zero; stripping
trailing zeros down to a least scale; the nearest integer; and the integer tests.
-/

namespace Calculator

namespace Decimal

/-- The integer with magnitude `n` and the sign of `m` (zero when `n` is zero). -/
def withSignOf (m : Int) (n : Nat) : Int := if m < 0 then -(n : Int) else n

/-- `n / unit` rounded to nearest, a half going up: adding half a unit (rounded down) before
dividing carries the quotient up exactly when twice the remainder reaches the unit. One division
does the work of a quotient and a remainder. -/
def roundQuotient (n unit : Nat) : Nat := (n + unit / 2) / unit

theorem roundQuotient_eq {n unit : Nat} (h : 0 < unit) :
    roundQuotient n unit = if unit ≤ 2 * (n % unit) then n / unit + 1 else n / unit := by
  have hn := Nat.div_add_mod n unit
  have hr := Nat.mod_lt n h
  unfold roundQuotient
  generalize n / unit = q at hn ⊢
  generalize n % unit = r at hn hr ⊢
  subst hn
  rw [show unit * q + r + unit / 2 = (r + unit / 2) + unit * q by omega,
    Nat.add_mul_div_left _ _ h]
  split
  · have h1 : (r + unit / 2) / unit = 1 :=
      Nat.div_eq_of_lt_le (by omega : 1 * unit ≤ r + unit / 2)
        (by omega : r + unit / 2 < (1 + 1) * unit)
    omega
  · have h0 : (r + unit / 2) / unit = 0 := Nat.div_eq_of_lt (by omega)
    omega

/-- Rounds to `p` significant digits, a half going away from zero. -/
def round (x : Decimal) (p : Precision) : Decimal :=
  let n := x.digits
  if n ≤ p.digits then x
  else
    let dropped := n - p.digits
    let q := roundQuotient x.mantissa.natAbs (pow10Word dropped)
    -- a carry that turned `99…9` into `10…0` has one digit too many; that digit is zero
    if p.digits < digitCount q then ⟨withSignOf x.mantissa (q / 10), wrap64 (x.scale - dropped - 1)⟩
    else ⟨withSignOf x.mantissa q, wrap64 (x.scale - dropped)⟩

/-- Drops trailing zero digits of `m` while the scale stays above `least`. -/
def stripDigits (m : Nat) (scale least : Int) : Nat × Int :=
  if h : least < scale ∧ 0 < m ∧ m % 10 = 0 then stripDigits (m / 10) (scale - 1) least
  else (m, scale)
termination_by m
decreasing_by omega

/-- Removes trailing zeros while the scale stays above `least`; zero becomes `0` at scale zero. -/
def stripZerosTo (x : Decimal) (least : Int) : Decimal :=
  if x.mantissa = 0 then zero
  else
    let (m, s) := stripDigits x.mantissa.natAbs x.scale least
    ⟨withSignOf x.mantissa m, s⟩

/-- The nearest integer, a half going away from zero. Values below a tenth give zero without
touching the scale. -/
def nearest (x : Decimal) : Int :=
  if x.mantissa = 0 ∨ x.exponent < -1 then 0
  else if x.scale ≤ 0 then x.mantissa * (pow10Word (-x.scale) : Int)
  else withSignOf x.mantissa (roundQuotient x.mantissa.natAbs (pow10Word x.scale))

/-- Whether the value is an integer (`5`, `5.00`, `1E+3`). -/
def isInteger (x : Decimal) : Bool :=
  if x.scale ≤ 0 ∨ x.mantissa = 0 then true
  else if (x.digits : Int) ≤ x.scale then false
  else x.mantissa.natAbs % pow10Word x.scale == 0

/-- The value as an integer of 64-bit two's complement, when it is an integer in that range.
Integers with an exponent above 18 are refused before their digits are formed. -/
def toInt64? (x : Decimal) : Option Int :=
  if x.mantissa = 0 then some 0
  else if !x.isInteger || 18 < x.exponent then none
  else
    let n :=
      if x.scale ≤ 0 then x.mantissa * (pow10Word (-x.scale) : Int)
      else x.mantissa.tdiv (pow10Word x.scale : Int)
    if int64Min ≤ n ∧ n ≤ int64Max then some n else none

/-- Whether an integer value is odd; a negative scale means a multiple of ten. -/
def isOddInteger (x : Decimal) : Bool :=
  if x.scale < 0 then false
  else (x.mantissa.tdiv (pow10Word x.scale : Int)) % 2 != 0

end Decimal

end Calculator
