import Calculator.Proofs.Rounding
import Calculator.Proofs.WordScale
/-!
Outcomes of computations that may fail. `x.Meets P E` says that every outcome of `x` is a value
with `P` or a failure with `E`; it composes through `bind` like a Hoare triple whose
postcondition has a part for each outcome.
-/

namespace Except

variable {ε α β : Type}

def Meets (P : α → Prop) (E : ε → Prop) : Except ε α → Prop
  | .ok a => P a
  | .error e => E e

variable {P Q : α → Prop} {E : ε → Prop}

theorem meets_pure {a : α} (h : P a) : (pure a : Except ε α).Meets P E := h

theorem meets_ok {a : α} (h : P a) : (Except.ok a : Except ε α).Meets P E := h

theorem meets_error {e : ε} (h : E e) : (Except.error e : Except ε α).Meets P E := h

theorem meets_throw {e : ε} (h : E e) : (throw e : Except ε α).Meets P E := h

theorem meets_bind {P : β → Prop} {x : Except ε α} {f : α → Except ε β} (hx : x.Meets Q E)
    (hf : ∀ a, Q a → (f a).Meets P E) : (x >>= f).Meets P E := by
  cases x with
  | error e => exact hx
  | ok a => exact hf a hx

theorem meets_ite {c : Prop} [Decidable c] {x y : Except ε α} (hx : c → x.Meets P E)
    (hy : ¬c → y.Meets P E) : (if c then x else y).Meets P E := by
  split_ifs with hc
  · exact hx hc
  · exact hy hc

theorem Meets.mono {x : Except ε α} {P' : α → Prop} {E' : ε → Prop} (h : x.Meets P E)
    (hP : ∀ a, P a → P' a) (hE : ∀ e, E e → E' e) : x.Meets P' E' := by
  cases x with
  | error e => exact hE e h
  | ok a => exact hP a h

theorem Meets.of_ok {x : Except ε α} {a : α} (h : x.Meets P E) (hx : x = .ok a) : P a := by
  subst hx
  exact h

theorem Meets.of_error {x : Except ε α} {e : ε} (h : x.Meets P E) (hx : x = .error e) : E e := by
  subst hx
  exact h

theorem Meets.with_eq {x : Except ε α} (h : x.Meets P E) : x.Meets (fun a => x = .ok a ∧ P a) E := by
  cases x with
  | error e => exact h
  | ok a => exact ⟨rfl, h⟩

theorem Meets.and {x : Except ε α} {Q : α → Prop} {E' : ε → Prop} (h : x.Meets P E)
    (h' : x.Meets Q E') : x.Meets (fun a => P a ∧ Q a) E' := by
  cases x with
  | error e => exact h'
  | ok a => exact ⟨h, h'⟩

end Except

namespace Calculator.Decimal

open Except

theorem wrap64_of_natAbs_lt {n : Int} (h : n.natAbs < 2 ^ 62) : wrap64 n = n :=
  wrap64_of_mem (by unfold int64Min; omega) (by unfold int64Max; omega)

@[simp]
theorem digits_abs (x : Decimal) : x.abs.digits = x.digits := by
  simp [digits, Decimal.abs, Int.natAbs_abs]

theorem exponent_of_small {x : Decimal} (hs : x.scale.natAbs < 2 ^ 40) (hd : x.digits < 2 ^ 40) :
    x.exponent = (x.digits : Int) - 1 - x.scale :=
  wrap64_of_natAbs_lt (by omega)

theorem toInt64?_of_not_integer {y : Decimal} (h : y.isInteger = false) : y.toInt64? = none := by
  have h0 : y.mantissa ≠ 0 := fun h0 => by simp [isInteger, h0] at h
  unfold toInt64?
  rw [if_neg h0, if_pos (by simp [h])]

theorem checked_meets (x : Decimal) : x.checked.Meets (· = x) (· = .overflow) := by
  unfold checked
  split_ifs
  · rfl
  · rfl

theorem round_checked_meets (x : Decimal) (p : Precision) :
    (x.round p).checked.Meets
      (fun z => z.mantissa.sign = x.mantissa.sign ∧ (x.digits < 2 ^ 32 → z.digits ≤ p.digits))
      (· = .overflow) := by
  refine (checked_meets _).mono ?_ fun _ h => h
  rintro z rfl
  exact ⟨round_mantissa_sign x p, round_digits_le p⟩

theorem mul_meets (x y : Decimal) (p : Precision) :
    (x.mul y p).Meets
      (fun z => z.mantissa.sign = x.mantissa.sign * y.mantissa.sign ∧
        (x.digits + y.digits < 2 ^ 32 → z.digits ≤ p.digits))
      (· = .overflow) := by
  refine (round_checked_meets _ p).mono ?_ fun _ h => h
  rintro z ⟨hsign, hdigits⟩
  refine ⟨by rw [hsign]; exact Int.sign_mul _ _, fun hd => hdigits ?_⟩
  show digitCount (x.mantissa * y.mantissa).natAbs < 2 ^ 32
  rw [Int.natAbs_mul]
  exact lt_of_le_of_lt (digitCount_mul_le hd) hd

def SumSign (x y z : Decimal) : Prop :=
  0 ≤ x.mantissa → 0 ≤ y.mantissa →
    0 ≤ z.mantissa ∧ (0 < x.mantissa ∨ 0 < y.mantissa → 0 < z.mantissa)

theorem sumSign_of_sign {x y z : Decimal} (h : z.mantissa.sign = y.mantissa.sign)
    (hx : x.mantissa = 0) : SumSign x y z := by
  intro _ hy
  have hz : 0 ≤ z.mantissa := Int.sign_nonneg_iff.mp (h ▸ Int.sign_nonneg_iff.mpr hy)
  refine ⟨hz, fun hpos => ?_⟩
  have hy' : 0 < y.mantissa := by omega
  exact Int.sign_pos_iff.mp (h ▸ Int.sign_pos_iff.mpr hy')

theorem exactAdd_pos {x y : Decimal} (hx : 0 < x.mantissa) (hy : 0 ≤ y.mantissa) :
    0 < (x.exactAdd y).mantissa := by
  have hxw : 0 < (pow10Word (max x.scale y.scale - x.scale) : Int) := by
    exact_mod_cast pow10_pos _
  have hyw : 0 ≤ (pow10Word (max x.scale y.scale - y.scale) : Int) := Int.natCast_nonneg _
  show 0 < x.mantissa * _ + y.mantissa * _
  have := Int.mul_pos hx hxw
  have := Int.mul_nonneg hy hyw
  omega

theorem add_meets (x y : Decimal) (p : Precision) :
    (x.add y p).Meets (SumSign x y) (· = .overflow) := by
  unfold add
  by_cases hx0 : x.mantissa = 0
  · rw [if_pos hx0]
    exact (round_checked_meets y p).mono (fun z h => sumSign_of_sign h.1 hx0) fun _ h => h
  rw [if_neg hx0]
  by_cases hy0 : y.mantissa = 0
  · rw [if_pos hy0]
    refine (round_checked_meets x p).mono (fun z h => ?_) fun _ h => h
    intro hx hy
    have := sumSign_of_sign (x := y) h.1 hy0 hy hx
    exact ⟨this.1, fun hpos => this.2 hpos.symm⟩
  rw [if_neg hy0]
  extract_lets ex ey
  split
  next big bigExp small smallExp hsel =>
    extract_lets floor small'
    refine (round_checked_meets _ p).mono (fun z h => fun hx hy => ?_) fun _ h => h
    have hparts : 0 < big.mantissa ∧ 0 ≤ small.mantissa := by
      split_ifs at hsel <;> cases hsel
      · exact ⟨by omega, hy⟩
      · exact ⟨by omega, hx⟩
    have hsmall : 0 ≤ small'.mantissa := by
      show 0 ≤ (if smallExp < floor then (⟨small.mantissa.sign, wrap64 (-floor)⟩ : Decimal)
        else small).mantissa
      split_ifs
      · exact Int.sign_nonneg_iff.mpr hparts.2
      · exact hparts.2
    have hpos : 0 < (big.exactAdd small').mantissa := exactAdd_pos hparts.1 hsmall
    have hz : 0 < z.mantissa := Int.sign_pos_iff.mp (h.1 ▸ Int.sign_pos_iff.mpr hpos)
    exact ⟨hz.le, fun _ => hz⟩

theorem sub_meets (x y : Decimal) (p : Precision) :
    (x.sub y p).Meets (fun _ => True) (· = .overflow) :=
  (add_meets x (-y) p).mono (fun _ _ => trivial) fun _ h => h

theorem div_zero (x : Decimal) {y : Decimal} (hy : y.mantissa = 0) (p : Precision) :
    x.div y p = .error .divisionByZero := by
  unfold div
  rw [if_pos hy]

theorem stripDigits_le (m : Nat) (scale least : Int) : (stripDigits m scale least).1 ≤ m := by
  fun_induction stripDigits m scale least with
  | case1 m scale hstrip ih => omega
  | case2 m scale hkeep => exact le_refl m

theorem digits_zero_le (p : Precision) : zero.digits ≤ p.digits :=
  digitCount_le p.digits_pos p.digits_lt (pow10_pos _)

theorem digits_one_le (p : Precision) : one.digits ≤ p.digits :=
  digitCount_le p.digits_pos p.digits_lt (lt_of_lt_of_le (by decide) (pow10_le_pow10 p.digits_pos))

theorem checked_of_le {x : Decimal} (h : wrappingAbs x.exponent ≤ (exponentLimit : Int)) :
    x.checked = .ok x := by
  unfold checked
  rw [if_neg (by omega)]

theorem add_eq_exactAdd {x y : Decimal} {p : Precision} (hx : x.mantissa ≠ 0)
    (hy : y.mantissa ≠ 0) (hle : y.exponent ≤ x.exponent)
    (hfloor : ¬y.exponent < min (wrap64 (x.exponent - p.digits - 3)) (wrap64 (-x.scale - 1))) :
    x.add y p = ((x.exactAdd y).round p).checked := by
  unfold add
  rw [if_neg hx, if_neg hy]
  extract_lets ex ey
  rw [if_pos hle]
  dsimp only
  rw [if_neg hfloor]

theorem stripZerosTo_digits_le (x : Decimal) (least : Int) (hd : x.digits < 2 ^ 32) :
    (x.stripZerosTo least).digits ≤ x.digits := by
  unfold stripZerosTo
  split_ifs
  · exact digitCount_le (digitCount_pos _) hd (pow10_pos _)
  · rcases hstrip : stripDigits x.mantissa.natAbs x.scale least with ⟨m, s⟩
    have hle := stripDigits_le x.mantissa.natAbs x.scale least
    rw [hstrip] at hle
    show digitCount (withSignOf x.mantissa m).natAbs ≤ digitCount x.mantissa.natAbs
    rw [natAbs_withSignOf]
    exact digitCount_mono hd hle

theorem le_mul_pow10 {a b : Nat} {k : Nat} (ha : 0 < a) (ha' : digitCount a < 2 ^ 32)
    (hb : digitCount b < 2 ^ 32) (hk : digitCount b ≤ digitCount a - 1 + k) :
    b ≤ a * pow10 k := by
  calc b ≤ pow10 (digitCount b) := (lt_pow10_digitCount hb).le
    _ ≤ pow10 (digitCount a - 1 + k) := pow10_le_pow10 hk
    _ = pow10 (digitCount a - 1) * pow10 k := pow10_add _ _
    _ ≤ a * pow10 k := Nat.mul_le_mul_right _ (pow10_pred_digitCount_le ha ha')

theorem digitCount_div_lt {a b k : Nat} (hb : 0 < b) (ha : digitCount a < 2 ^ 32)
    (hbw : digitCount b < 2 ^ 32) (hk : digitCount a + k + 1 < 2 ^ 32 + digitCount b) :
    digitCount (a * pow10 k / b) < 2 ^ 32 := by
  have hlow := pow10_pred_digitCount_le hb hbw
  have hpos := digitCount_pos b
  have hlt : a * pow10 k / b < pow10 (digitCount a + k + 1 - digitCount b) := by
    apply Nat.div_lt_of_lt_mul
    calc a * pow10 k < pow10 (digitCount a) * pow10 k :=
          Nat.mul_lt_mul_of_pos_right (lt_pow10_digitCount ha) (pow10_pos k)
      _ ≤ pow10 (digitCount b - 1) * pow10 (digitCount a + k + 1 - digitCount b) := by
          rw [← pow10_add, ← pow10_add]
          exact pow10_le_pow10 (by omega)
      _ ≤ b * pow10 (digitCount a + k + 1 - digitCount b) := Nat.mul_le_mul_right _ hlow
  have := digitCount_le (d := max 1 (digitCount a + k + 1 - digitCount b)) (by omega) (by omega)
    (lt_of_lt_of_le hlt (pow10_le_pow10 (le_max_right _ _)))
  omega

def QuotientSign (x y z : Decimal) (p : Precision) : Prop :=
  0 < y.mantissa → 0 ≤ x.mantissa → 0 ≤ z.mantissa ∧
    (0 < x.mantissa → p.digits + y.digits + 2 < 4294967296 → 0 < z.mantissa)

theorem div_meets (x : Decimal) {y : Decimal} (hy : y.mantissa ≠ 0) (p : Precision) :
    (x.div y p).Meets
      (fun z => QuotientSign x y z p ∧
        (x.digits < 2 ^ 32 → p.digits + y.digits + 2 < 2 ^ 32 → z.digits ≤ p.digits))
      (· = .overflow) := by
  unfold div
  rw [if_neg hy]
  split_ifs with hx0
  · exact ⟨fun _ _ => ⟨le_refl 0, fun hx => absurd hx (by omega)⟩, fun _ _ => digits_zero_le p⟩
  extract_lets k preferred q
  have hkdef : k = max 0 ((p.digits : Int) + 2 + y.digits - x.digits) := rfl
  have hqdef : q.mantissa = (x.mantissa * (pow10Word k : Int)).tdiv y.mantissa := rfl
  clear_value k preferred q
  refine (checked_meets _).mono (fun z hz => ?_) fun _ h => h
  subst hz
  have hsign : ((q.round p).stripZerosTo preferred).mantissa.sign = q.mantissa.sign := by
    rw [stripZerosTo_mantissa_sign, round_mantissa_sign]
  have hxdigits := digitCount_pos x.mantissa.natAbs
  have hydigits := digitCount_pos y.mantissa.natAbs
  simp only [digits] at hkdef
  refine ⟨fun hypos hxnonneg => ⟨?_, fun hxpos hbound => ?_⟩, fun hxw hbound => ?_⟩
  · have hq : 0 ≤ q.mantissa := by
      rw [hqdef]
      exact Int.tdiv_nonneg (Int.mul_nonneg hxnonneg (Int.natCast_nonneg _)) hypos.le
    exact Int.sign_nonneg_iff.mp (hsign ▸ Int.sign_nonneg_iff.mpr hq)
  · -- below `2 ^ 32` the widening power is exact, and it carries the dividend past the divisor;
    -- a dividend of more digits is past the divisor already
    simp only [digits] at hbound
    have hk0 : 0 ≤ k := by omega
    have hk32 : k < 4294967296 := by omega
    have hyw : digitCount y.mantissa.natAbs < 2 ^ 32 := by omega
    have hwiden : y.mantissa.natAbs ≤ x.mantissa.natAbs * pow10 k.toNat := by
      by_cases hxw : digitCount x.mantissa.natAbs < 2 ^ 32
      · exact le_mul_pow10 (Int.natAbs_pos.mpr hx0) hxw hyw (by omega)
      · have hbig := Nat.le_of_not_lt (mt digitCount_lt_iff.mpr hxw)
        have hsmall : y.mantissa.natAbs < pow10 Precision.digitsLimit :=
          digitCount_lt_iff.mp hyw
        calc y.mantissa.natAbs ≤ x.mantissa.natAbs := by omega
          _ ≤ x.mantissa.natAbs * pow10 k.toNat := Nat.le_mul_of_pos_right _ (pow10_pos _)
    have hq : 0 < q.mantissa := by
      rw [hqdef, pow10Word, low32_of_lt hk0 hk32, Int.tdiv_eq_ediv, if_pos (.inl (by positivity)),
        Int.add_zero]
      apply Int.le_ediv_of_mul_le hypos
      have hcast : (y.mantissa.natAbs : Int) ≤ (x.mantissa.natAbs * pow10 k.toNat : Nat) := by
        exact_mod_cast hwiden
      rw [Int.natAbs_of_nonneg hypos.le, Nat.cast_mul, Int.natAbs_of_nonneg hxnonneg] at hcast
      omega
    exact Int.sign_pos_iff.mp (hsign ▸ Int.sign_pos_iff.mpr hq)
  · -- the widened quotient keeps its digits below `2 ^ 32`, so rounding brings them to `p`
    have hxw' : digitCount x.mantissa.natAbs < 2 ^ 32 := hxw
    simp only [digits] at hbound
    have hk0 : 0 ≤ k := by omega
    have hk32 : k < 4294967296 := by omega
    have hqw : q.digits < 2 ^ 32 := by
      show digitCount q.mantissa.natAbs < 2 ^ 32
      rw [hqdef, Int.natAbs_tdiv, Int.natAbs_mul, Int.natAbs_natCast, pow10Word,
        low32_of_lt hk0 hk32]
      exact digitCount_div_lt (Int.natAbs_pos.mpr hy) hxw' (by omega) (by omega)
    exact le_trans (stripZerosTo_digits_le _ _ (lt_of_le_of_lt (round_digits_le p hqw)
      p.digits_lt)) (round_digits_le p hqw)

end Calculator.Decimal
