import Calculator.Proofs.Digits
import Calculator.Decimal.Round
/-!
Rounding to a precision. A rounded decimal has at most the precision's digits, so a second
rounding changes nothing, and rounding, like removing trailing zeros, keeps the sign of the
mantissa: a nonzero mantissa has at least as many digits as are dropped, so its rounded quotient
is never zero.
-/

namespace Calculator.Decimal

theorem natAbs_withSignOf (m : Int) (n : Nat) : (withSignOf m n).natAbs = n := by
  unfold withSignOf
  split <;> simp

theorem roundQuotient_le {n unit : Nat} (h : 0 < unit) : roundQuotient n unit ≤ n / unit + 1 := by
  rw [roundQuotient_eq h]
  split <;> omega

theorem round_eq_of_digits_lt {x : Decimal} {p : Precision} (hd : x.digits < 2 ^ 32) :
    x.round p =
      if x.digits ≤ p.digits then x
      else
        let dropped := x.digits - p.digits
        let q := roundQuotient x.mantissa.natAbs (pow10 dropped)
        if pow10 p.digits ≤ q then ⟨withSignOf x.mantissa (q / 10), wrap64 (x.scale - dropped - 1)⟩
        else ⟨withSignOf x.mantissa q, wrap64 (x.scale - dropped)⟩ := by
  have hcarry : ∀ q, p.digits < digitCount q ↔ pow10 p.digits ≤ q := fun q => by
    rw [← not_le, digitCount_le_iff p.digits_pos p.digits_lt, not_lt]
  unfold round
  simp only [hcarry, pow10Word_natCast (show x.digits - p.digits < 2 ^ 32 by omega)]

theorem round_digits_le {x : Decimal} (p : Precision) (hd : x.digits < 2 ^ 32) :
    (x.round p).digits ≤ p.digits := by
  rw [round_eq_of_digits_lt hd]
  extract_lets dropped q
  by_cases hn : x.digits ≤ p.digits
  · rw [if_pos hn]
    exact hn
  · rw [if_neg hn]
    have hbelow : x.mantissa.natAbs / pow10 dropped < pow10 p.digits := by
      have h := div_pow10_lt (show dropped ≤ x.digits by omega) (lt_pow10_digitCount hd)
      rwa [show x.digits - dropped = p.digits by omega] at h
    have hq : q ≤ pow10 p.digits := by
      have := roundQuotient_le (n := x.mantissa.natAbs) (pow10_pos dropped)
      omega
    split
    · next hcarry =>
      apply digitCount_le p.digits_pos p.digits_lt
      rw [natAbs_withSignOf]
      have := Nat.div_lt_self (lt_of_lt_of_le (pow10_pos _) hcarry) (by decide : 1 < 10)
      omega
    · next hcarry =>
      apply digitCount_le p.digits_pos p.digits_lt
      rw [natAbs_withSignOf]
      omega

theorem round_of_digits_le {x : Decimal} {p : Precision} (h : x.digits ≤ p.digits) :
    x.round p = x := by
  unfold round
  rw [if_pos h]

theorem round_round {x : Decimal} (p : Precision) (hd : x.digits < 2 ^ 32) :
    (x.round p).round p = x.round p :=
  round_of_digits_le (round_digits_le p hd)

theorem sign_withSignOf {m : Int} {k : Nat} (hm : m ≠ 0) (hk : 0 < k) :
    (withSignOf m k).sign = m.sign := by
  unfold withSignOf
  split
  · next hneg =>
    rw [Int.sign_neg, Int.sign_eq_one_of_pos (by omega), Int.sign_eq_neg_one_of_neg hneg]
  · next hnonneg =>
    rw [Int.sign_eq_one_of_pos (by omega), Int.sign_eq_one_of_pos (by omega)]

theorem roundQuotient_pos {n unit : Nat} (h : 0 < unit) (hn : unit ≤ n) :
    0 < roundQuotient n unit := by
  have hdiv := Nat.div_pos hn h
  rw [roundQuotient_eq h]
  split <;> omega

theorem pow10Word_dropped_le {x : Decimal} (hm : x.mantissa ≠ 0) {dropped : Nat}
    (h : dropped < x.digits) : pow10Word dropped ≤ x.mantissa.natAbs := by
  by_cases hw : x.digits < 2 ^ 32
  · have hcount : x.digits = digitCount x.mantissa.natAbs := rfl
    rw [pow10Word_natCast (by omega)]
    exact le_trans (pow10_le_pow10 (by omega))
      (pow10_pred_digitCount_le (Int.natAbs_pos.mpr hm) hw)
  · exact le_trans (pow10Word_le _) (Nat.le_of_not_lt (mt digitCount_lt_iff.mpr hw))

theorem round_mantissa_sign (x : Decimal) (p : Precision) :
    (x.round p).mantissa.sign = x.mantissa.sign := by
  unfold round
  extract_lets n dropped q
  by_cases hn : x.digits ≤ p.digits
  · rw [if_pos hn]
  · rw [if_neg hn]
    have hm : x.mantissa ≠ 0 := by
      intro hzero
      apply hn
      show digitCount x.mantissa.natAbs ≤ p.digits
      rw [hzero, Int.natAbs_zero, digitCount_zero]
      exact p.digits_pos
    have hq : 0 < q :=
      roundQuotient_pos (pow10_pos _) (pow10Word_dropped_le hm (by have := p.digits_pos; omega))
    split
    · next hcarry =>
      have hten : 10 ≤ q := by
        by_contra hsmall
        have := digitCount_le (n := q) (d := 1) (by decide) (by decide)
          (by show q < 10; omega)
        have := p.digits_pos
        omega
      exact sign_withSignOf hm (by omega)
    · exact sign_withSignOf hm hq

theorem stripDigits_pos {m : Nat} (hm : 0 < m) (scale least : Int) :
    0 < (stripDigits m scale least).1 := by
  fun_induction stripDigits m scale least with
  | case1 m scale hstrip ih =>
    apply ih
    omega
  | case2 m scale hkeep => exact hm

theorem stripZerosTo_mantissa_sign (x : Decimal) (least : Int) :
    (x.stripZerosTo least).mantissa.sign = x.mantissa.sign := by
  unfold stripZerosTo
  split_ifs with hzero
  · rw [hzero]
    rfl
  · have hpos := stripDigits_pos (Int.natAbs_pos.mpr hzero) x.scale least
    rcases hstrip : stripDigits x.mantissa.natAbs x.scale least with ⟨m, s⟩
    rw [hstrip] at hpos
    exact sign_withSignOf hzero hpos

end Calculator.Decimal
