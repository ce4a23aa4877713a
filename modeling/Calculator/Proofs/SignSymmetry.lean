import Calculator.Proofs.SumRounding
import Calculator.Proofs.Literals
import Calculator.Proofs.IntegerTests
/-!
Negation commutes with the arithmetic exactly. Rounding goes a half away from zero, a quotient is
truncated towards zero, a sum reads only the signs and exponents of its addends, a series stops
on exponents only, and the nearest integer rounds a half away from zero: each primitive takes the
opposite operands to the opposite result or to the same failure, and nothing more is needed.
-/

namespace Calculator.Decimal

/-! ### The arithmetic -/

theorem exponent_neg (x : Decimal) : (-x).exponent = x.exponent := by
  unfold exponent
  rw [digits_neg]
  rfl

theorem neg_mantissa_eq_zero {x : Decimal} : (-x).mantissa = 0 ↔ x.mantissa = 0 :=
  Int.neg_eq_zero

theorem map_neg_map_neg {ε : Type} (z : Except ε Decimal) : Neg.neg <$> (Neg.neg <$> z) = z := by
  cases z with
  | error e => rfl
  | ok v => exact congrArg Except.ok (neg_neg v)

theorem checked_neg (x : Decimal) : (-x).checked = Neg.neg <$> x.checked := by
  unfold checked
  rw [exponent_neg]
  simp only [neg_mantissa, ne_eq, Int.neg_eq_zero]
  split <;> rfl

theorem stripZerosTo_neg (x : Decimal) (least : Int) :
    (-x).stripZerosTo least = -x.stripZerosTo least := by
  unfold stripZerosTo
  by_cases h0 : x.mantissa = 0
  · simp only [neg_mantissa, h0, Int.neg_zero, if_true]
    rfl
  · simp only [neg_mantissa, Int.neg_eq_zero, h0, if_false, Int.natAbs_neg, neg_scale]
    show (⟨_, _⟩ : Decimal) = ⟨-_, _⟩
    rw [withSignOf_neg h0]

theorem mul_neg_left (x y : Decimal) (p : Precision) : (-x).mul y p = Neg.neg <$> x.mul y p := by
  unfold mul
  rw [← checked_neg, ← round_neg]
  simp only [neg_mantissa, neg_scale, Int.neg_mul]
  rfl

theorem mul_neg_right (x y : Decimal) (p : Precision) : x.mul (-y) p = Neg.neg <$> x.mul y p := by
  unfold mul
  rw [← checked_neg, ← round_neg]
  simp only [neg_mantissa, neg_scale, Int.mul_neg]
  rfl

theorem mul_neg_neg (x y : Decimal) (p : Precision) : (-x).mul (-y) p = x.mul y p := by
  rw [mul_neg_left, mul_neg_right, map_neg_map_neg]

theorem exactAdd_neg (x y : Decimal) : (-x).exactAdd (-y) = -x.exactAdd y := by
  unfold exactAdd
  simp only [neg_mantissa, neg_scale, Int.neg_mul]
  show (⟨_, _⟩ : Decimal) = ⟨-_, _⟩
  rw [Int.neg_add]

theorem tipAddend_neg (big small : Decimal) (p : Precision) :
    tipAddend (-big) (-small) p = -tipAddend big small p := by
  unfold tipAddend
  simp only [exponent_neg, neg_scale, neg_mantissa, Int.sign_neg]
  split <;> rfl

theorem add_neg_neg (x y : Decimal) (p : Precision) : (-x).add (-y) p = Neg.neg <$> x.add y p := by
  by_cases hx : x.mantissa = 0
  · unfold add
    rw [if_pos (neg_mantissa_eq_zero.mpr hx), if_pos hx, round_neg, checked_neg]
  have hx' : (-x).mantissa ≠ 0 := neg_mantissa_eq_zero.not.mpr hx
  by_cases hy : y.mantissa = 0
  · unfold add
    rw [if_neg hx', if_neg hx, if_pos (neg_mantissa_eq_zero.mpr hy), if_pos hy, round_neg,
      checked_neg]
  have hy' : (-y).mantissa ≠ 0 := neg_mantissa_eq_zero.not.mpr hy
  rcases le_or_gt y.exponent x.exponent with hle | hlt
  · rw [add_of_exponent_le hx' hy' (by rwa [exponent_neg, exponent_neg]),
      add_of_exponent_le hx hy hle, tipAddend_neg, exactAdd_neg, round_neg, checked_neg]
  · rw [add_of_exponent_lt hx' hy' (by rwa [exponent_neg, exponent_neg]),
      add_of_exponent_lt hx hy hlt, tipAddend_neg, exactAdd_neg, round_neg, checked_neg]

theorem sub_neg_neg (x y : Decimal) (p : Precision) : (-x).sub (-y) p = Neg.neg <$> x.sub y p :=
  add_neg_neg x (-y) p

theorem div_neg_left (x y : Decimal) (p : Precision) : (-x).div y p = Neg.neg <$> x.div y p := by
  unfold div
  by_cases hy : y.mantissa = 0
  · simp only [hy, if_true]
    rfl
  by_cases hx : x.mantissa = 0
  · simp only [hy, hx, neg_mantissa, Int.neg_zero, if_true, if_false]
    rfl
  simp only [hy, hx, neg_mantissa, Int.neg_eq_zero, if_false, digits_neg, neg_scale, Int.neg_mul,
    Int.neg_tdiv]
  rw [← checked_neg, ← stripZerosTo_neg, ← round_neg]
  rfl

theorem div_neg_right (x y : Decimal) (p : Precision) : x.div (-y) p = Neg.neg <$> x.div y p := by
  unfold div
  by_cases hy : y.mantissa = 0
  · simp only [hy, neg_mantissa, Int.neg_zero, if_true]
    rfl
  by_cases hx : x.mantissa = 0
  · simp only [hy, hx, neg_mantissa, Int.neg_eq_zero, if_true, if_false]
    rfl
  simp only [hy, hx, neg_mantissa, Int.neg_eq_zero, if_false, digits_neg, neg_scale, Int.tdiv_neg]
  rw [← checked_neg, ← stripZerosTo_neg, ← round_neg]
  rfl

theorem nearest_neg (x : Decimal) : (-x).nearest = -x.nearest := by
  unfold nearest
  simp only [neg_mantissa, Int.neg_eq_zero, exponent_neg, neg_scale, Int.natAbs_neg]
  split_ifs with h0 hs
  · rfl
  · exact Int.neg_mul _ _
  · exact withSignOf_neg (fun h => h0 (.inl h)) _

theorem abs_neg_eq_abs (x : Decimal) : (-x).abs = x.abs := by
  show (⟨(-x.mantissa).natAbs, x.scale⟩ : Decimal) = ⟨x.mantissa.natAbs, x.scale⟩
  rw [Int.natAbs_neg]

theorem ite_isNeg_neg {x : Decimal} (hx : x.mantissa ≠ 0) (r : Decimal) :
    (if (-x).isNeg then -r else r) = -(if x.isNeg then -r else r) := by
  by_cases hneg : x.mantissa < 0
  · rw [if_neg (by simp [isNeg]; omega), if_pos (by simpa [isNeg] using hneg), neg_neg]
  · rw [if_pos (by simp [isNeg]; omega), if_neg (by simpa [isNeg] using hneg)]

theorem mantissa_ne_zero_of_sameValue_one {x : Decimal} (h : x.abs.sameValue one = true) :
    x.mantissa ≠ 0 := by
  intro h0
  have hzero : x.abs = ⟨0, x.scale⟩ := by
    show (⟨x.mantissa.natAbs, x.scale⟩ : Decimal) = _
    rw [h0]
    rfl
  rw [hzero] at h
  revert h
  simp [sameValue, Decimal.compare, sign, one]

end Calculator.Decimal

namespace Calculator.Elementary

open Decimal

theorem map_neg_ite (c : Prop) [Decidable c] (a b : Except Fault Decimal) :
    Neg.neg <$> (if c then a else b) = if c then Neg.neg <$> a else Neg.neg <$> b :=
  apply_ite _ c a b

theorem finish_neg (x : Decimal) (p : Precision) : finish (-x) p = Neg.neg <$> finish x p := by
  unfold finish
  rw [round_neg, stripZerosTo_neg, checked_neg]

theorem negligible_neg (term sum : Decimal) (w : Precision) :
    negligible (-term) (-sum) w = negligible term sum w := by
  have hzero : ∀ m : Int, (-m == 0) = (m == 0) := fun m => by
    rw [Bool.eq_iff_iff, beq_iff_eq, beq_iff_eq, Int.neg_eq_zero]
  simp only [negligible, neg_mantissa, exponent_neg, bne, hzero]

/-! ### Series -/

def OddStep (next : Nat → Decimal → Except Fault (Decimal × Decimal)) : Prop :=
  ∀ n s, next n (-s) = (fun st : Decimal × Decimal => (-st.1, -st.2)) <$> next n s

theorem sumSeries_neg {w : Precision} {next : Nat → Decimal → Except Fault (Decimal × Decimal)}
    (hnext : OddStep next) (fuel n : Nat) (state sum : Decimal) :
    sumSeries w next fuel n (-state) (-sum) = Neg.neg <$> sumSeries w next fuel n state sum := by
  induction fuel generalizing n state sum with
  | zero => rfl
  | succ fuel ih =>
    rw [sumSeries, sumSeries, hnext n state, bind_map_left, map_bind]
    congr 1
    funext st
    obtain ⟨s, t⟩ := st
    simp only [negligible_neg]
    split
    · rfl
    · rw [add_neg_neg, bind_map_left, map_bind]
      congr 1
      funext v
      exact ih (n + 1) s v

theorem series_neg {w : Precision} {next : Nat → Decimal → Except Fault (Decimal × Decimal)}
    (hnext : OddStep next) (start first : Decimal) :
    series w next (-start) (-first) = Neg.neg <$> series w next start first :=
  sumSeries_neg hnext _ _ start first

/-! ### The circular functions -/

theorem trigPrecision_neg (x : Decimal) (p : Precision) :
    trigPrecision (-x) p = trigPrecision x p := by
  simp only [trigPrecision, exponent_neg]

theorem reduceAngle_neg (x : Decimal) (w : Precision) :
    reduceAngle (-x) w = Neg.neg <$> reduceAngle x w := by
  simp only [reduceAngle, map_bind, div_neg_left, bind_map_left, nearest_neg, Int.neg_eq_zero]
  congr 1
  funext twoPi
  congr 1
  funext d
  split
  · rfl
  · rw [show ofInt (-d.nearest) = -ofInt d.nearest from rfl, mul_neg_left, bind_map_left, map_bind]
    congr 1
    funext m
    exact sub_neg_neg x m w

theorem sinSeries_neg (r : Decimal) (w : Precision) :
    sinSeries (-r) w = Neg.neg <$> sinSeries r w := by
  unfold sinSeries
  simp only [neg_mantissa, Int.neg_eq_zero, mul_neg_neg]
  split
  · rfl
  · rw [map_bind]
    congr 1
    funext r2
    apply series_neg
    intro n s
    simp only [mul_neg_left, bind_map_left, div_neg_left, map_bind, map_pure]

theorem cosSeries_neg (r : Decimal) (w : Precision) : cosSeries (-r) w = cosSeries r w := by
  unfold cosSeries
  rw [mul_neg_neg]

theorem sin_odd (x : Decimal) (p : Precision) : sin (-x) p = Neg.neg <$> sin x p := by
  simp only [sin, neg_mantissa, Int.neg_eq_zero, trigPrecision_neg]
  split
  · rfl
  · simp only [map_bind, reduceAngle_neg, bind_map_left, sinSeries_neg, finish_neg]

theorem cos_even (x : Decimal) (p : Precision) : cos (-x) p = cos x p := by
  simp only [cos, neg_mantissa, Int.neg_eq_zero, trigPrecision_neg, reduceAngle_neg,
    bind_map_left, cosSeries_neg]

theorem tan_odd (x : Decimal) (p : Precision) : tan (-x) p = Neg.neg <$> tan x p := by
  simp only [tan, neg_mantissa, Int.neg_eq_zero, trigPrecision_neg]
  split
  · rfl
  · simp only [map_bind, reduceAngle_neg, bind_map_left, sinSeries_neg, cosSeries_neg,
      div_neg_left, finish_neg]

theorem arctanWorking_neg (x : Decimal) (w : Precision) :
    arctanWorking (-x) w = Neg.neg <$> arctanWorking x w := by
  simp only [arctanWorking, neg_mantissa, Int.neg_eq_zero, abs_neg_eq_abs]
  split
  · rfl
  · next hx =>
    simp only [map_neg_ite, map_bind, map_pure, ite_isNeg_neg hx]

theorem arctan_odd (x : Decimal) (p : Precision) : arctan (-x) p = Neg.neg <$> arctan x p := by
  simp only [arctan, arctanWorking_neg, bind_map_left, finish_neg, map_bind]

theorem arcsinWorking_neg (x : Decimal) (w : Precision) :
    arcsinWorking (-x) w = Neg.neg <$> arcsinWorking x w := by
  simp only [arcsinWorking, abs_neg_eq_abs]
  split
  · -- `±1`: a right angle of the sign of `x`
    next hone =>
    simp only [map_bind, map_pure, ite_isNeg_neg (mantissa_ne_zero_of_sameValue_one hone)]
  · simp only [mul_neg_neg, map_bind, div_neg_left, bind_map_left, arctanWorking_neg]

theorem arcsin_odd (x : Decimal) (p : Precision) :
    arcsin (-x) p =
      if one < x.abs then .error (.outOfDomain "arcsin" (-x)) else Neg.neg <$> arcsin x p := by
  simp only [arcsin, abs_neg_eq_abs]
  split
  · rfl
  · simp only [map_bind, arcsinWorking_neg, bind_map_left, finish_neg]

theorem circular_functions_parity (x : Decimal) (p : Precision) :
    sin (-x) p = Neg.neg <$> sin x p ∧ cos (-x) p = cos x p ∧
      tan (-x) p = Neg.neg <$> tan x p ∧ arctan (-x) p = Neg.neg <$> arctan x p ∧
      (if one < x.abs then
        arcsin (-x) p = .error (.outOfDomain "arcsin" (-x)) ∧
          arcsin x p = .error (.outOfDomain "arcsin" x)
      else arcsin (-x) p = Neg.neg <$> arcsin x p) := by
  refine ⟨sin_odd x p, cos_even x p, tan_odd x p, arctan_odd x p, ?_⟩
  rw [arcsin_odd]
  split
  · next hout => exact ⟨rfl, by simp only [arcsin, if_pos hout]; rfl⟩
  · rfl

/-! ### Powers -/

theorem powerLoop_zero (w : Precision) (acc b : Decimal) : powerLoop w 0 acc b = .ok acc := by
  rw [powerLoop, if_pos rfl]

theorem powerLoop_step {w : Precision} {e : Nat} (he : e ≠ 0) (acc b : Decimal) :
    powerLoop w e acc b =
      (if e % 2 = 1 then acc.mul b w else pure acc) >>= fun acc' =>
        (if e / 2 > 0 then b.mul b w else pure b) >>= fun b' => powerLoop w (e / 2) acc' b' := by
  rw [powerLoop, if_neg he]
  split <;> split <;> rfl

theorem powerLoop_neg_acc (w : Precision) (e : Nat) (acc b : Decimal) :
    powerLoop w e (-acc) b = Neg.neg <$> powerLoop w e acc b := by
  induction e using Nat.strong_induction_on generalizing acc b with
  | _ e ih =>
    rcases Nat.eq_zero_or_pos e with rfl | he
    · rw [powerLoop_zero, powerLoop_zero]
      rfl
    · have hacc : (if e % 2 = 1 then (-acc).mul b w else pure (-acc)) =
          Neg.neg <$> (if e % 2 = 1 then acc.mul b w else pure acc) := by
        split
        · exact mul_neg_left acc b w
        · rfl
      rw [powerLoop_step he.ne', powerLoop_step he.ne', hacc, bind_map_left, map_bind]
      congr 1
      funext acc'
      rw [map_bind]
      congr 1
      funext b'
      exact ih _ (by omega) acc' b'

theorem powerLoop_neg_base (w : Precision) (e : Nat) (acc b : Decimal) :
    powerLoop w e acc (-b) =
      if e % 2 = 1 then Neg.neg <$> powerLoop w e acc b else powerLoop w e acc b := by
  rcases Nat.eq_zero_or_pos e with rfl | he
  · simp only [powerLoop_zero, Nat.zero_mod, zero_ne_one, if_false]
  rw [powerLoop_step he.ne', powerLoop_step he.ne']
  by_cases hhalf : e / 2 > 0
  · simp only [if_pos hhalf, mul_neg_neg]
    split
    · simp only [mul_neg_right, bind_map_left, map_bind, powerLoop_neg_acc]
    · rfl
  · -- the last bit: the base is never squared
    have hodd : e % 2 = 1 := by omega
    have hlast : e / 2 = 0 := by omega
    simp only [if_neg hhalf, if_pos hodd]
    rw [hlast, mul_neg_right, bind_map_left, map_bind]
    congr 1
    funext a
    simp only [pure_bind, powerLoop_zero]
    rfl

theorem integerPower_neg_base (x : Decimal) (n : Int) (p : Precision) :
    integerPower (-x) n p =
      if n.natAbs % 2 = 1 then Neg.neg <$> integerPower x n p else integerPower x n p := by
  by_cases hn : n = 0
  · simp [integerPower, hn]
  by_cases hx : x.mantissa = 0
  · have hzero : Neg.neg <$> integerPower x n p = integerPower x n p := by
      simp only [integerPower, if_neg hn, if_pos hx]
      split <;> rfl
    simp only [hzero, ite_self]
    simp only [integerPower, neg_mantissa, Int.neg_eq_zero, if_neg hn, if_pos hx]
    split <;> rfl
  have hlast : ∀ acc : Decimal,
      (if n < 0 then one.div (-acc) p else ((-acc).round p).checked) =
        Neg.neg <$> (if n < 0 then one.div acc p else (acc.round p).checked) := by
    intro acc
    split
    · exact div_neg_right one acc p
    · rw [round_neg, checked_neg]
  simp only [integerPower, neg_mantissa, Int.neg_eq_zero, if_neg hn, if_neg hx,
    powerLoop_neg_base]
  split
  · rw [bind_map_left, map_bind]
    congr 1
    funext acc
    exact hlast acc
  · rfl

theorem power_neg_base_parity {x : Decimal} (hx : x.mantissa ≠ 0) {y : Decimal} {k : Int}
    (hk : y.IsIntValue k) (hw : y.WordScale) (he : y.TrueExponent) (hd : y.digits < 2 ^ 32)
    (p : Precision) :
    power (-x) y p = if Odd k then Neg.neg <$> power x y p else power x y p := by
  have hint : y.isInteger = true := (isInteger_iff hd).mpr ⟨k, hk⟩
  have hodd := isOddInteger_iff hk hd
  simp only [power, neg_mantissa, Int.neg_eq_zero, hx, if_false, abs_neg_eq_abs, hint,
    Bool.not_true, Bool.false_eq_true, and_false]
  by_cases hk' : Odd k
  · -- an odd exponent: through `exp (y · ln |x|)` the sign is set by the parity of `y`
    simp only [if_pos hk', hodd.mpr hk', and_true, ite_isNeg_neg hx]
    rcases hread : y.toInt64? with _ | n
    · simp only [map_bind, map_pure]
    · dsimp only
      split
      · have hkn : n = k := isIntValue_unique ((toInt64?_eq_some_iff hw he hd n).mp hread).1 hk
        rw [integerPower_neg_base, hkn, if_pos (Nat.odd_iff.mp (Int.natAbs_odd.mpr hk'))]
      · simp only [map_bind, map_pure]
  · -- an even exponent: the sign of the base is never read
    have heven : y.isOddInteger = false := Bool.eq_false_iff.mpr (fun h => hk' (hodd.mp h))
    simp only [if_neg hk', heven, Bool.false_eq_true, and_false, if_false]
    rcases hread : y.toInt64? with _ | n
    · rfl
    · dsimp only
      split
      · have hkn : n = k := isIntValue_unique ((toInt64?_eq_some_iff hw he hd n).mp hread).1 hk
        rw [integerPower_neg_base, hkn,
          if_neg (fun h => hk' (Int.natAbs_odd.mp (Nat.odd_iff.mpr h)))]
      · rfl

/-- `(-2) ^ 3` is the opposite of `2 ^ 3`; an exponent `1E-9223372036854775808`, whose exponent is
no true word, is read as `1`, so `(-1)` to that even power comes out as the opposite of `1`. -/
theorem power_neg_base_parity_cube :
    power (-⟨2, 0⟩) ⟨3, 0⟩ ⟨10, by decide, by decide⟩ =
        Neg.neg <$> power ⟨2, 0⟩ ⟨3, 0⟩ ⟨10, by decide, by decide⟩ ∧
      ¬(⟨1, int64Min⟩ : Decimal).TrueExponent ∧
      power (-one) ⟨1, int64Min⟩ ⟨10, by decide, by decide⟩ = .ok (-one) := by
  have h := @power_neg_base_parity ⟨2, 0⟩ (by decide) ⟨3, 0⟩ 3 (by decide) (by decide)
    (by with_unfolding_all decide) (by with_unfolding_all decide) ⟨10, by decide, by decide⟩
  rw [if_pos (by decide)] at h
  exact ⟨h, by with_unfolding_all decide, by with_unfolding_all decide⟩

end Calculator.Elementary
