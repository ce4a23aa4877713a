import Calculator.Word
import Calculator.BinaryFloat
/-!
Decimal numbers: an integer mantissa and an integer scale, standing for
`mantissa · 10 ^ (-scale)`. The scale is kept as written, so `2.50` and `2.5` are two
decimals of one value. Rounding and printing are stated in the digit count of the mantissa
and in the exponent, the position of the leading digit.
-/

namespace Calculator

/-- `0.301029995663`, just below `log 2 / log 10`, as the binary64 number nearest to it:
`log10TwoSignificand · 2 ^ -54`. -/
def log10TwoSignificand : Nat := 5422874305180915

example : 2 * (301029995663 * Nat.pow 2 54 - log10TwoSignificand * 1000000000000) ≤
    1000000000000 := by decide

/-- The first guess at the digit count of a number of `k + 1` bits: `⌊k · 0.301029995663⌋ + 1`,
with `k` and the product each rounded to binary64 and the product truncated. -/
def digitEstimate (k : Nat) : Nat :=
  roundToBits binary64Bits (roundToBits binary64Bits k * log10TwoSignificand) / Nat.pow 2 54 + 1

/-- `10 ^ n`, the unit of the `n`-th decimal place. -/
def pow10 (n : Nat) : Nat := Nat.pow 10 n

/-- `10 ^ n` for a count `n` given as a word: the power reads its low 32 bits only, which is
`n` itself for every count below `2 ^ 32`. -/
def pow10Word (n : Int) : Nat := pow10 (low32 n)

/-- The number of decimal digits of `n`, one for zero: the least `d ≥ 1` with `n < 10 ^ d`.

The search starts from `digitEstimate` of the binary length, which is never above the answer,
and climbs while `10 ^ d ≤ n`. -/
def digitLength (n : Nat) : Nat :=
  if n = 0 then 1 else climb (digitEstimate n.log2)
where
  climb (d : Nat) : Nat :=
    if pow10 d ≤ n then climb (d + 1) else d
  termination_by n + 1 - d
  decreasing_by
    have : d < pow10 d := Nat.lt_pow_self (by decide)
    omega

/-- The digit count that rounding and the working precisions use: the climb of `digitLength`,
with each power `pow10Word d` reading the count as a 32-bit word. Below `10 ^ (2 ^ 32 - 1)`
it is `digitLength`; from there on every power it can test is at most `n` and the loop of
the calculator never stops, while `climb` stops after `2 ^ 32` steps, once every word has
been tried. -/
def digitCount (n : Nat) : Nat :=
  if n = 0 then 1 else climb wordSteps (digitEstimate n.log2)
where
  wordSteps : Nat := 4294967296
  climb : Nat → Nat → Nat
    | 0, d => d
    | fuel + 1, d => if pow10Word d ≤ n then climb fuel (d + 1) else d

/-- The largest count of digits: counts are 32-bit words. -/
def Precision.digitsLimit : Nat := 4294967295

/-- A count of significant digits, at least one and at most `Precision.digitsLimit`. -/
structure Precision where
  digits : Nat
  digits_pos : 0 < digits
  digits_le : digits ≤ Precision.digitsLimit
  deriving DecidableEq, Repr

namespace Precision

/-- The precision of `n` digits, when `n` is a count from one to `digitsLimit`. -/
def ofNat? (n : Nat) : Option Precision :=
  if h : 0 < n ∧ n ≤ digitsLimit then some ⟨n, h.1, h.2⟩ else none

/-- A working precision: `extra` guard digits more, stopping at `digitsLimit`. -/
def widen (p : Precision) (extra : Nat) : Precision :=
  ⟨min (p.digits + extra) digitsLimit,
    Nat.lt_min.mpr ⟨by have := p.digits_pos; omega, by decide⟩, Nat.min_le_right _ _⟩

@[simp] theorem widen_digits (p : Precision) (extra : Nat) :
    (p.widen extra).digits = min (p.digits + extra) digitsLimit := rfl

theorem widen_digits_of_le {p : Precision} {extra : Nat} (h : p.digits + extra ≤ digitsLimit) :
    (p.widen extra).digits = p.digits + extra := Nat.min_eq_left h

end Precision

/-- The decimal `mantissa · 10 ^ (-scale)`. -/
structure Decimal where
  mantissa : Int
  scale : Int
  deriving DecidableEq, Repr, Inhabited

namespace Decimal

/-- Zero with scale zero, the zero that operations return. -/
def zero : Decimal := ⟨0, 0⟩

/-- One with scale zero. -/
def one : Decimal := ⟨1, 0⟩

/-- The integer `n` with scale zero. -/
def ofInt (n : Int) : Decimal := ⟨n, 0⟩

instance (n : Nat) : OfNat Decimal n := ⟨ofInt n⟩

/-- The number of digits of the mantissa, one for zero. -/
def digits (x : Decimal) : Nat := digitCount x.mantissa.natAbs

/-- The position of the leading digit: `3` for `1234.5`, `-2` for `0.01`. It is a word, so it
wraps when the scale lies near the ends of the 64-bit range. -/
def exponent (x : Decimal) : Int := wrap64 ((x.digits : Int) - 1 - x.scale)

/-- Whether the mantissa is zero. -/
def isZero (x : Decimal) : Bool := x.mantissa == 0

/-- Whether the value is below zero. -/
def isNeg (x : Decimal) : Bool := x.mantissa < 0

/-- The sign of the value: `-1`, `0` or `1`. -/
def sign (x : Decimal) : Int := x.mantissa.sign

/-- The opposite value, at the same scale. -/
def neg (x : Decimal) : Decimal := ⟨-x.mantissa, x.scale⟩

instance : Neg Decimal := ⟨neg⟩

/-- The absolute value, at the same scale. -/
def abs (x : Decimal) : Decimal := ⟨x.mantissa.natAbs, x.scale⟩

/-- The value times `10 ^ n`, exactly while the scale stays a word: only the scale moves. -/
def shift (x : Decimal) (n : Int) : Decimal := ⟨x.mantissa, wrap64 (x.scale - n)⟩

@[simp] theorem neg_mantissa (x : Decimal) : (-x).mantissa = -x.mantissa := rfl

@[simp] theorem neg_scale (x : Decimal) : (-x).scale = x.scale := rfl

@[simp] theorem shift_scale (x : Decimal) (n : Int) : (x.shift n).scale = wrap64 (x.scale - n) :=
  rfl

/-- The magnitude of the mantissa brought to a larger scale `s`, by `10 ^ (s - x.scale)` with
the count read as a word. -/
def magnitudeAt (x : Decimal) (s : Int) : Nat := x.mantissa.natAbs * pow10Word (s - x.scale)

/-- Compares by value, so that `2.0` and `2` are equal: signs first, then exponents, and on
equal exponents the magnitudes brought to a common scale. -/
def compare (x y : Decimal) : Ordering :=
  if x.sign ≠ y.sign then Ord.compare x.sign y.sign
  else if x.sign = 0 then .eq
  else
    let byMagnitude :=
      if x.exponent = y.exponent then
        let s := max x.scale y.scale
        Ord.compare (x.magnitudeAt s) (y.magnitudeAt s)
      else Ord.compare x.exponent y.exponent
    if x.sign < 0 then byMagnitude.swap else byMagnitude

/-- Whether two decimals have the same value, whatever their scales. -/
def sameValue (x y : Decimal) : Bool := x.compare y == .eq

/-- Decimals are ordered by value. -/
instance : LT Decimal := ⟨fun x y => x.compare y = .lt⟩

instance : LE Decimal := ⟨fun x y => x.compare y ≠ .gt⟩

instance (x y : Decimal) : Decidable (x < y) := inferInstanceAs (Decidable (x.compare y = .lt))

instance (x y : Decimal) : Decidable (x ≤ y) := inferInstanceAs (Decidable (x.compare y ≠ .gt))

end Decimal

end Calculator
