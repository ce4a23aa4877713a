import Mathlib
import Calculator.Decimal.Text

/-!
Decimal digits. `digitLength n` is the least count `d ≥ 1` with `n < 10 ^ d`, the length of the
decimal digits of `n`: the climb starts from `digitEstimate (log2 n)`, `⌊log2 n · 0.301029995663⌋ + 1`
in binary64 arithmetic, never above that count. Each of its two roundings moves a value up by at
most a `2 ^ 53`-th of it, so the truncated product stays below `log2 n · 97879 / 325147`, and
`10 ^ 97879 < 2 ^ 325147` puts that below `log2 n · log 2 / log 10`. `digitCount` climbs on
powers whose count is a word, so it agrees with `digitLength` exactly below `10 ^ (2 ^ 32 - 1)`.
The texts that `paddedDigits` and `digitChars` write have the length asked for, hold only digits, and read back through
`digitsValue` as the number.
-/

namespace Calculator

theorem pow10_eq_pow (n : Nat) : pow10 n = 10 ^ n := rfl

theorem pow10_pos (n : Nat) : 0 < pow10 n := Nat.pow_pos (by decide)

theorem pow10_succ (n : Nat) : pow10 (n + 1) = pow10 n * 10 := Nat.pow_succ 10 n

theorem pow10_add (m n : Nat) : pow10 (m + n) = pow10 m * pow10 n := Nat.pow_add ..

theorem pow10_le_pow10 {m n : Nat} (h : m ≤ n) : pow10 m ≤ pow10 n :=
  Nat.pow_le_pow_right (by decide) h

theorem pow10_lt_pow10_iff {m n : Nat} : pow10 m < pow10 n ↔ m < n :=
  Nat.pow_lt_pow_iff_right (by decide)

namespace digitLength

theorem climb_spec (n d : Nat) :
    d ≤ climb n d ∧ n < pow10 (climb n d) ∧ ∀ e, d ≤ e → n < pow10 e → climb n d ≤ e := by
  fun_induction climb n d with
  | case1 d hle ih =>
    obtain ⟨hd, hlt, hleast⟩ := ih
    refine ⟨by omega, hlt, fun e hde he => hleast e ?_ he⟩
    rcases Nat.lt_or_eq_of_le hde with h | rfl
    · exact h
    · omega
  | case2 d hlt =>
    exact ⟨le_refl d, by omega, fun e hde _ => hde⟩

theorem mul_lt_of_pow_lt {L d c e : Nat} (key : 10 ^ c < 2 ^ e) (h : 2 ^ L < 10 ^ d) :
    L * c < d * e := by
  by_contra hge
  have hL : L ≠ 0 := by
    rintro rfl
    have hd : d ≠ 0 := by
      rintro rfl
      exact lt_irrefl 1 h
    have he : e ≠ 0 := fun he => by rw [he] at key; simp at key
    exact hge (by simpa using Nat.mul_pos (Nat.pos_of_ne_zero hd) (Nat.pos_of_ne_zero he))
  have hloop : 10 ^ (d * e) < 10 ^ (d * e) :=
    calc 10 ^ (d * e) ≤ 10 ^ (L * c) := Nat.pow_le_pow_right (by decide) (by omega)
      _ = (10 ^ c) ^ L := by rw [← Nat.pow_mul, Nat.mul_comm]
      _ < (2 ^ e) ^ L := Nat.pow_lt_pow_left key hL
      _ = (2 ^ L) ^ e := by rw [← Nat.pow_mul, ← Nat.pow_mul, Nat.mul_comm]
      _ < (10 ^ d) ^ e := Nat.pow_lt_pow_left h (fun he => by rw [he] at key; simp at key)
      _ = 10 ^ (d * e) := by rw [← Nat.pow_mul]
  exact lt_irrefl _ hloop

/-! The binary64 estimate -/

theorem roundToBits_mul_le (bits n : Nat) (hb : 0 < bits) :
    roundToBits bits n * 2 ^ bits ≤ n * (2 ^ bits + 1) := by
  unfold roundToBits
  dsimp only
  have hunit : Nat.pow 2 (n.log2 + 1 - bits) = 2 ^ (n.log2 + 1 - bits) := rfl
  generalize hu : Nat.pow 2 (n.log2 + 1 - bits) = unit at hunit
  have hpos : 0 < unit := hunit ▸ Nat.two_pow_pos _
  have hdiv : n / unit * unit + n % unit = n := by rw [Nat.mul_comm]; exact Nat.div_add_mod n unit
  have hr : n % unit < unit := Nat.mod_lt n hpos
  split_ifs with hup
  · -- up by `unit - r`, at most half a unit, and a unit is at most a `2 ^ (bits - 1)`-th of `n`
    have hhalf : unit ≤ 2 * (n % unit) := by omega
    have hdrop : 1 ≤ n.log2 + 1 - bits := by
      by_contra h0
      rw [show n.log2 + 1 - bits = 0 by omega, Nat.pow_zero] at hunit
      omega
    have hlow : unit * 2 ^ (bits - 1) ≤ n := by
      calc unit * 2 ^ (bits - 1) = 2 ^ n.log2 := by rw [hunit, ← Nat.pow_add]; congr 1; omega
        _ ≤ n := Nat.log2_self_le (by omega)
    have h2b : 2 ^ bits = 2 * 2 ^ (bits - 1) := by rw [← Nat.pow_succ']; congr 1; omega
    rw [h2b]
    nlinarith [Nat.mul_le_mul_right (2 ^ (bits - 1)) hhalf]
  · calc n / unit * unit * 2 ^ bits ≤ n * 2 ^ bits := Nat.mul_le_mul_right _ (by omega)
      _ ≤ n * (2 ^ bits + 1) := Nat.mul_le_mul_left _ (by omega)

theorem digitEstimate_pred_mul_le (k : Nat) :
    (digitEstimate k - 1) * 2 ^ 160 ≤ k * (log10TwoSignificand * (2 ^ 53 + 1) ^ 2) := by
  have hest : digitEstimate k - 1 =
      roundToBits 53 (roundToBits 53 k * log10TwoSignificand) / 2 ^ 54 := by
    simp [digitEstimate, binary64Bits]
  generalize hK : roundToBits 53 k = K at hest
  generalize hR : roundToBits 53 (K * log10TwoSignificand) = R at hest
  have hKle : K * 2 ^ 53 ≤ k * (2 ^ 53 + 1) := hK ▸ roundToBits_mul_le 53 k (by decide)
  have hRle : R * 2 ^ 53 ≤ K * log10TwoSignificand * (2 ^ 53 + 1) :=
    hR ▸ roundToBits_mul_le 53 _ (by decide)
  calc (digitEstimate k - 1) * 2 ^ 160
      = (digitEstimate k - 1) * 2 ^ 54 * 2 ^ 53 * 2 ^ 53 := by ring
    _ ≤ R * 2 ^ 53 * 2 ^ 53 := by
      rw [hest]
      exact Nat.mul_le_mul_right _ (Nat.mul_le_mul_right _ (Nat.div_mul_le_self R _))
    _ ≤ K * log10TwoSignificand * (2 ^ 53 + 1) * 2 ^ 53 := Nat.mul_le_mul_right _ hRle
    _ = K * 2 ^ 53 * (log10TwoSignificand * (2 ^ 53 + 1)) := by ring
    _ ≤ k * (2 ^ 53 + 1) * (log10TwoSignificand * (2 ^ 53 + 1)) := Nat.mul_le_mul_right _ hKle
    _ = k * (log10TwoSignificand * (2 ^ 53 + 1) ^ 2) := by ring

theorem pow10_digitEstimate_le (k : Nat) : pow10 (digitEstimate k - 1) ≤ 2 ^ k := by
  have hconst : log10TwoSignificand * (2 ^ 53 + 1) ^ 2 * 325147 ≤ 97879 * 2 ^ 160 := by
    norm_num [log10TwoSignificand]
  by_contra hlt
  have hkey : 10 ^ 97879 < 2 ^ 325147 := by decide +kernel
  have hcross := mul_lt_of_pow_lt hkey (Nat.lt_of_not_le hlt)
  have hmul : (digitEstimate k - 1) * 325147 * 2 ^ 160 ≤ k * 97879 * 2 ^ 160 :=
    calc (digitEstimate k - 1) * 325147 * 2 ^ 160
        = (digitEstimate k - 1) * 2 ^ 160 * 325147 := by ring
      _ ≤ k * (log10TwoSignificand * (2 ^ 53 + 1) ^ 2) * 325147 :=
        Nat.mul_le_mul_right _ (digitEstimate_pred_mul_le k)
      _ = k * (log10TwoSignificand * (2 ^ 53 + 1) ^ 2 * 325147) := by ring
      _ ≤ k * (97879 * 2 ^ 160) := Nat.mul_le_mul_left _ hconst
      _ = k * 97879 * 2 ^ 160 := by ring
  have := Nat.le_of_mul_le_mul_right hmul (Nat.two_pow_pos 160)
  omega

theorem one_le_digitEstimate (k : Nat) : 1 ≤ digitEstimate k :=
  Nat.le_add_left 1 _

theorem start_le {n d : Nat} (hn : 0 < n) (h : n < pow10 d) : digitEstimate n.log2 ≤ d := by
  have hlow : pow10 (digitEstimate n.log2 - 1) ≤ n :=
    le_trans (pow10_digitEstimate_le n.log2) (Nat.log2_self_le hn.ne')
  have hlt : digitEstimate n.log2 - 1 < d := pow10_lt_pow10_iff.mp (by omega)
  have := one_le_digitEstimate n.log2
  omega

end digitLength

theorem digitLength_zero : digitLength 0 = 1 := rfl

theorem digitLength_of_pos {n : Nat} (hn : 0 < n) :
    digitLength n = digitLength.climb n (digitEstimate n.log2) :=
  if_neg hn.ne'

theorem digitLength_pos (n : Nat) : 0 < digitLength n := by
  rcases Nat.eq_zero_or_pos n with rfl | hn
  · rw [digitLength_zero]
    decide
  · have := (digitLength.climb_spec n (digitEstimate n.log2)).1
    have := digitLength.one_le_digitEstimate n.log2
    rw [digitLength_of_pos hn]
    omega

theorem lt_pow10_digitLength (n : Nat) : n < pow10 (digitLength n) := by
  rcases Nat.eq_zero_or_pos n with rfl | hn
  · exact pow10_pos _
  · rw [digitLength_of_pos hn]
    exact (digitLength.climb_spec n _).2.1

theorem digitLength_le {n d : Nat} (hd : 0 < d) (h : n < pow10 d) : digitLength n ≤ d := by
  rcases Nat.eq_zero_or_pos n with rfl | hn
  · rw [digitLength_zero]
    exact hd
  · rw [digitLength_of_pos hn]
    exact (digitLength.climb_spec n _).2.2 d (digitLength.start_le hn h) h

theorem digitLength_le_iff {n d : Nat} (hd : 0 < d) : digitLength n ≤ d ↔ n < pow10 d :=
  ⟨fun h => lt_of_lt_of_le (lt_pow10_digitLength n) (pow10_le_pow10 h), digitLength_le hd⟩

theorem pow10_pred_digitLength_le {n : Nat} (hn : 0 < n) : pow10 (digitLength n - 1) ≤ n := by
  by_contra hlt
  have hpos := digitLength_pos n
  rcases Nat.lt_or_eq_of_le (Nat.one_le_iff_ne_zero.mpr hpos.ne') with h1 | h1
  · have := digitLength_le (by omega) (Nat.lt_of_not_le hlt)
    omega
  · rw [← h1] at hlt
    exact hlt (by simpa [pow10] using Nat.succ_le_of_lt hn)

/-! Counts read as words -/

theorem low32_of_lt {n : Int} (h0 : 0 ≤ n) (h : n < 4294967296) : low32 n = n.toNat := by
  unfold low32
  rw [Int.emod_eq_of_lt h0 h]

theorem low32_lt (n : Int) : low32 n < 4294967296 := by
  unfold low32
  omega

theorem pow10Word_of_lt {n : Int} (h0 : 0 ≤ n) (h : n < 2 ^ 32) :
    pow10Word n = pow10 n.toNat := by
  rw [pow10Word, low32_of_lt h0 (by omega)]

theorem pow10Word_natCast {d : Nat} (h : d < 2 ^ 32) : pow10Word d = pow10 d := by
  rw [pow10Word_of_lt (Int.natCast_nonneg d) (by exact_mod_cast h), Int.toNat_natCast]

theorem Precision.digits_lt (p : Precision) : p.digits < 2 ^ 32 := by
  have := p.digits_le
  unfold Precision.digitsLimit at this
  omega

theorem pow10Word_le (n : Int) : pow10Word n ≤ pow10 Precision.digitsLimit :=
  pow10_le_pow10 (by have := low32_lt n; unfold Precision.digitsLimit; omega)

namespace digitCount

theorem climb_eq_of_lt {n : Nat} :
    ∀ {fuel d : Nat}, digitLength.climb n d < 2 ^ 32 → digitLength.climb n d - d < fuel →
      climb n fuel d = digitLength.climb n d
  | 0, d, _, hfuel => by omega
  | fuel + 1, d, hlt, hfuel => by
    have hd := (digitLength.climb_spec n d).1
    rw [climb, pow10Word_natCast (by omega)]
    by_cases hup : pow10 d ≤ n
    · have hnext : digitLength.climb n d = digitLength.climb n (d + 1) := by
        rw [digitLength.climb, if_pos hup]
      have hd' := (digitLength.climb_spec n (d + 1)).1
      rw [if_pos hup, hnext]
      exact climb_eq_of_lt (by omega) (by omega)
    · rw [if_neg hup, digitLength.climb, if_neg hup]

theorem climb_of_le {n : Nat} (h : pow10 Precision.digitsLimit ≤ n) :
    ∀ fuel d, climb n fuel d = d + fuel
  | 0, _ => rfl
  | fuel + 1, d => by
    rw [climb, if_pos (le_trans (pow10Word_le d) h), climb_of_le h fuel (d + 1)]
    omega

end digitCount

theorem digitCount_eq_digitLength {n : Nat} (h : n < pow10 Precision.digitsLimit) :
    digitCount n = digitLength n := by
  rcases Nat.eq_zero_or_pos n with rfl | hn
  · rfl
  · have hlen : digitLength n ≤ Precision.digitsLimit := (digitLength_le_iff (by decide)).mpr h
    rw [digitLength_of_pos hn] at hlen ⊢
    rw [digitCount, if_neg hn.ne']
    unfold Precision.digitsLimit at hlen
    exact digitCount.climb_eq_of_lt (by omega) (by unfold digitCount.wordSteps; omega)

theorem digitCount_of_le {n : Nat} (h : pow10 Precision.digitsLimit ≤ n) :
    digitCount n = digitEstimate n.log2 + 2 ^ 32 := by
  have hn : n ≠ 0 := Nat.pos_iff_ne_zero.mp (lt_of_lt_of_le (pow10_pos _) h)
  rw [digitCount, if_neg hn, digitCount.climb_of_le h]
  rfl

theorem digitCount_lt_iff {n : Nat} : digitCount n < 2 ^ 32 ↔ n < pow10 Precision.digitsLimit := by
  constructor
  · intro hc
    by_contra hge
    rw [digitCount_of_le (Nat.le_of_not_lt hge)] at hc
    omega
  · intro h
    have hlen : digitLength n ≤ Precision.digitsLimit := (digitLength_le_iff (by decide)).mpr h
    rw [digitCount_eq_digitLength h]
    unfold Precision.digitsLimit at hlen
    omega

theorem digitCount_eq_digitLength_of_lt {n : Nat} (h : digitCount n < 2 ^ 32) :
    digitCount n = digitLength n :=
  digitCount_eq_digitLength (digitCount_lt_iff.mp h)

theorem digitCount_zero : digitCount 0 = 1 := rfl

theorem digitCount_pos (n : Nat) : 0 < digitCount n := by
  by_cases h : n < pow10 Precision.digitsLimit
  · rw [digitCount_eq_digitLength h]
    exact digitLength_pos n
  · rw [digitCount_of_le (Nat.le_of_not_lt h)]
    omega

theorem lt_pow10_digitCount {n : Nat} (h : digitCount n < 2 ^ 32) : n < pow10 (digitCount n) := by
  rw [digitCount_eq_digitLength_of_lt h]
  exact lt_pow10_digitLength n

theorem digitCount_le {n d : Nat} (hd : 0 < d) (hw : d < 2 ^ 32) (h : n < pow10 d) :
    digitCount n ≤ d := by
  have hlim : n < pow10 Precision.digitsLimit :=
    lt_of_lt_of_le h (pow10_le_pow10 (by unfold Precision.digitsLimit; omega))
  rw [digitCount_eq_digitLength hlim]
  exact digitLength_le hd h

theorem digitCount_le_iff {n d : Nat} (hd : 0 < d) (hw : d < 2 ^ 32) :
    digitCount n ≤ d ↔ n < pow10 d :=
  ⟨fun h => lt_of_lt_of_le (lt_pow10_digitCount (by omega)) (pow10_le_pow10 h),
    digitCount_le hd hw⟩

theorem pow10_pred_digitCount_le {n : Nat} (hn : 0 < n) (h : digitCount n < 2 ^ 32) :
    pow10 (digitCount n - 1) ≤ n := by
  rw [digitCount_eq_digitLength_of_lt h]
  exact pow10_pred_digitLength_le hn

theorem digitCount_mono {a b : Nat} (hb : digitCount b < 2 ^ 32) (h : a ≤ b) :
    digitCount a ≤ digitCount b :=
  digitCount_le (digitCount_pos b) hb (lt_of_le_of_lt h (lt_pow10_digitCount hb))

theorem digitCount_mul_le {a b : Nat} (h : digitCount a + digitCount b < 2 ^ 32) :
    digitCount (a * b) ≤ digitCount a + digitCount b := by
  have ha := digitCount_pos a
  apply digitCount_le (by omega) h
  rw [pow10_add]
  exact Nat.mul_lt_mul'' (lt_pow10_digitCount (by omega)) (lt_pow10_digitCount (by omega))

/-- `digitCount` counts the decimal digits of `|m|`, one for zero, below `10 ^ (2 ^ 32 - 1)`:
from the estimate, every word power up to the count is at most `|m|` and the count's exceeds it,
so the climb stops there by its test. From `10 ^ (2 ^ 32 - 1)` on no word power exceeds `|m|`,
and the climb only stops when its fuel is spent, past `2 ^ 32`. -/
theorem digitCount_eq_digits_length (m : ℤ) :
    (m.natAbs < pow10 Precision.digitsLimit →
      digitCount m.natAbs = max 1 (Nat.digits 10 m.natAbs).length ∧
      (m ≠ 0 → digitEstimate m.natAbs.log2 ≤ digitCount m.natAbs ∧
        (∀ d, digitEstimate m.natAbs.log2 ≤ d → d < digitCount m.natAbs →
          pow10Word d ≤ m.natAbs) ∧ m.natAbs < pow10Word (digitCount m.natAbs) ∧
        10 ^ (digitCount m.natAbs - 1) ≤ m.natAbs ∧ m.natAbs < 10 ^ digitCount m.natAbs)) ∧
    (pow10 Precision.digitsLimit ≤ m.natAbs →
      (∀ d : ℤ, pow10Word d ≤ m.natAbs) ∧ 2 ^ 32 ≤ digitCount m.natAbs) := by
  set n := m.natAbs
  refine ⟨fun hsmall => ?_, fun hbig => ?_⟩
  · have hcount : digitCount n = digitLength n := digitCount_eq_digitLength hsmall
    have hword : digitLength n < 2 ^ 32 := hcount ▸ digitCount_lt_iff.mpr hsmall
    rw [hcount]
    have hiff : ∀ d, 0 < d → (digitLength n ≤ d ↔ max 1 (Nat.digits 10 n).length ≤ d) := by
      intro d hd
      rw [digitLength_le_iff hd, max_le_iff, Nat.digits_length_le_iff (by norm_num)]
      exact ⟨fun h => ⟨hd, h⟩, fun h => h.2⟩
    refine ⟨le_antisymm ((hiff _ (lt_max_of_lt_left one_pos)).mpr le_rfl)
      ((hiff _ (digitLength_pos n)).mp le_rfl), fun hm => ?_⟩
    have hn : 0 < n := Int.natAbs_pos.mpr hm
    have hbelow : ∀ d, d < digitLength n → pow10Word d ≤ n := by
      intro d hd
      rw [pow10Word_natCast (by omega)]
      exact le_trans (pow10_le_pow10 (by omega)) (pow10_pred_digitLength_le hn)
    exact ⟨digitLength.start_le hn (lt_pow10_digitLength n), fun d _ hd => hbelow d hd,
      (pow10Word_natCast hword).symm ▸ lt_pow10_digitLength n, pow10_pred_digitLength_le hn,
      lt_pow10_digitLength n⟩
  · exact ⟨fun d => le_trans (pow10Word_le d) hbig, by rw [digitCount_of_le hbig]; omega⟩

theorem ofDigitChars_replicate_zero_append (k : Nat) (l : List Char) :
    Nat.ofDigitChars 10 (List.replicate k '0' ++ l) 0 = Nat.ofDigitChars 10 l 0 := by
  rw [Nat.ofDigitChars_append, Nat.ofDigitChars_replicate_zero, Nat.mul_zero]

namespace Decimal

theorem div_pow10_lt {n low w : Nat} (hlow : low ≤ w) (h : n < pow10 w) :
    n / pow10 low < pow10 (w - low) := by
  apply Nat.div_lt_of_lt_mul
  rwa [← pow10_add, Nat.add_sub_cancel' hlow]

theorem paddedDigits_length {n w : Nat} (hw : 0 < w) (h : n < pow10 w) :
    (paddedDigits n w).length = w := by
  fun_induction paddedDigits n w with
  | case1 n w hsmall ds =>
    have hds : ds.length ≤ w := (Nat.length_toDigits_le_iff (by decide) hw).mpr h
    simp only [List.length_append, List.length_replicate]
    omega
  | case2 n w hlarge low ihHigh ihLow =>
    have hlow : low = w / 2 := rfl
    rw [List.length_append, ihHigh (by omega) (div_pow10_lt (by omega) h),
      ihLow (by omega) (Nat.mod_lt _ (pow10_pos low))]
    omega

theorem paddedDigits_value {n w : Nat} (h : n < pow10 w) :
    Nat.ofDigitChars 10 (paddedDigits n w) 0 = n := by
  fun_induction paddedDigits n w with
  | case1 n w hsmall ds =>
    rw [ofDigitChars_replicate_zero_append]
    exact Nat.ofDigitChars_ten_toDigits
  | case2 n w hlarge low ihHigh ihLow =>
    have hlow : low = w / 2 := rfl
    have hmod : n % pow10 low < pow10 low := Nat.mod_lt _ (pow10_pos low)
    rw [Nat.ofDigitChars_append, Nat.ofDigitChars_eq_ofDigitChars_zero,
      paddedDigits_length (by omega) hmod, ihHigh (div_pow10_lt (by omega) h), ihLow hmod,
      ← pow10_eq_pow]
    exact Nat.div_add_mod n (pow10 low)

theorem isDigit_of_mem_paddedDigits {n w : Nat} {c : Char} (hc : c ∈ paddedDigits n w) :
    c.isDigit = true := by
  fun_induction paddedDigits n w with
  | case1 n w hsmall ds =>
    rcases List.mem_append.mp hc with hzero | hdigit
    · rw [List.eq_of_mem_replicate hzero]
      rfl
    · exact Nat.isDigit_of_mem_toDigits (by decide) (by decide) hdigit
  | case2 n w hlarge low ihHigh ihLow =>
    rcases List.mem_append.mp hc with hhigh | hlow
    · exact ihHigh hhigh
    · exact ihLow hlow

theorem digitsValue_eq (cs : List Char) : digitsValue cs = Nat.ofDigitChars 10 cs 0 := by
  fun_induction digitsValue cs with
  | case1 cs hshort => rfl
  | case2 cs hlong low ihTake ihDrop =>
    have hlow : low = cs.length / 2 := rfl
    have hdrop : (cs.drop (cs.length - low)).length = low := by
      rw [List.length_drop]
      omega
    conv_rhs => rw [← List.take_append_drop (cs.length - low) cs]
    rw [Nat.ofDigitChars_append, Nat.ofDigitChars_eq_ofDigitChars_zero, hdrop, ihTake, ihDrop,
      ← pow10_eq_pow, Nat.mul_comm]

theorem digitChars_length (n : Nat) : (digitChars n).length = digitLength n :=
  paddedDigits_length (digitLength_pos n) (lt_pow10_digitLength n)

theorem digitsValue_digitChars (n : Nat) : digitsValue (digitChars n) = n := by
  rw [digitsValue_eq]
  exact paddedDigits_value (lt_pow10_digitLength n)

theorem isDigit_of_mem_digitChars {n : Nat} {c : Char} (hc : c ∈ digitChars n) :
    c.isDigit = true :=
  isDigit_of_mem_paddedDigits hc

theorem digitsValue_replicate_zero (k : Nat) (cs : List Char) :
    digitsValue (List.replicate k '0' ++ cs) = digitsValue cs := by
  rw [digitsValue_eq, digitsValue_eq, ofDigitChars_replicate_zero_append]

end Decimal

end Calculator
