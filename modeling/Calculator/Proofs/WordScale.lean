import Calculator.Proofs.Digits
import Calculator.Evaluation.Machine

/-!
Scales are 64-bit words. Every decimal the calculator forms has a scale in
`[int64Min, int64Max]`: a scale it computes is wrapped, and one it keeps comes from an operand
whose scale is a word. The statements say what a computation gives when it gives a value
(`Except.Ensures`), one for each operation and each function, from the arithmetic up.
-/

namespace Except

variable {ε α β : Type}

def Ensures (P : α → Prop) (x : Except ε α) : Prop := ∀ a, x = .ok a → P a

theorem ensures_pure {P : α → Prop} {a : α} (h : P a) : (pure a : Except ε α).Ensures P := by
  rintro b ⟨⟩
  exact h

theorem ensures_ok {P : α → Prop} {a : α} (h : P a) : (Except.ok a : Except ε α).Ensures P :=
  ensures_pure h

theorem ensures_error {P : α → Prop} (e : ε) : (Except.error e : Except ε α).Ensures P := by
  rintro b ⟨⟩

theorem ensures_throw {P : α → Prop} (e : ε) : (throw e : Except ε α).Ensures P := by
  rintro b ⟨⟩

theorem ensures_bind {x : Except ε α} {f : α → Except ε β} {Q : α → Prop} {P : β → Prop}
    (hx : x.Ensures Q) (hf : ∀ a, Q a → (f a).Ensures P) : (x >>= f).Ensures P := by
  intro b hb
  cases hrun : x with
  | error e => rw [hrun] at hb; cases hb
  | ok a => rw [hrun] at hb; exact hf a (hx a hrun) b hb

theorem ensures_bind_any {x : Except ε α} {f : α → Except ε β} {P : β → Prop}
    (hf : ∀ a, (f a).Ensures P) : (x >>= f).Ensures P :=
  ensures_bind (Q := fun _ => True) (fun _ _ => trivial) fun a _ => hf a

theorem ensures_throw_bind {P : β → Prop} (e : ε) (f : α → Except ε β) :
    (throw e >>= f).Ensures P := by
  rintro b ⟨⟩

theorem ensures_ite {c : Prop} [Decidable c] {x y : Except ε α} {P : α → Prop}
    (hx : c → x.Ensures P) (hy : ¬c → y.Ensures P) : (if c then x else y).Ensures P := by
  split_ifs with hc
  · exact hx hc
  · exact hy hc

end Except

namespace Calculator

theorem wrap64_mem (n : Int) : int64Min ≤ wrap64 n ∧ wrap64 n ≤ int64Max := by
  have hlow := Int.le_bmod (x := n) (m := wordCount) (by decide)
  have hhigh := Int.bmod_lt (x := n) (m := wordCount) (by decide)
  unfold wrap64 int64Min int64Max wordCount
  unfold wordCount at hlow hhigh
  omega

theorem wrappingAbs_le_iff {n : Int} {L : Nat} (h1 : int64Min ≤ n) (h2 : n ≤ int64Max) :
    wrappingAbs n ≤ L ↔ n.natAbs ≤ L ∨ n = int64Min := by
  unfold wrappingAbs wrap64 wordCount
  unfold int64Min at *
  unfold int64Max at h2
  rw [Int.bmod_def]
  split_ifs <;> omega

namespace Decimal

def WordScale (x : Decimal) : Prop := int64Min ≤ x.scale ∧ x.scale ≤ int64Max

instance (x : Decimal) : Decidable x.WordScale := inferInstanceAs (Decidable (_ ∧ _))

theorem wordScale_wrap64 (m s : Int) : (⟨m, wrap64 s⟩ : Decimal).WordScale := wrap64_mem s

theorem wordScale_of_scale_eq {x : Decimal} {s : Int} (hs : x.scale = s) (h1 : int64Min ≤ s)
    (h2 : s ≤ int64Max) : x.WordScale := by
  rw [WordScale, hs]
  exact ⟨h1, h2⟩

theorem wordScale_wrap64_div_two (m s : Int) : (⟨m, wrap64 s / 2⟩ : Decimal).WordScale := by
  obtain ⟨h1, h2⟩ := wrap64_mem s
  unfold int64Min at h1
  unfold int64Max at h2
  constructor <;> simp only [int64Min, int64Max] <;> omega

theorem ofChars?_wordScale {cs : List Char} {x : Decimal} (h : ofChars? cs = some x) :
    x.WordScale := by
  unfold ofChars? at h
  split at h
  extract_lets body exponent at h
  split at h
  · cases h
    exact wordScale_wrap64 _ _
  · cases h

theorem WordScale.neg {x : Decimal} (hx : x.WordScale) : (-x).WordScale := hx

theorem WordScale.abs {x : Decimal} (hx : x.WordScale) : x.abs.WordScale := hx

theorem wordScale_ofInt (n : Int) : (ofInt n).WordScale :=
  wordScale_of_scale_eq (show (ofInt n).scale = 0 from rfl) (by decide) (by decide)

theorem WordScale.round {x : Decimal} (hx : x.WordScale) (p : Precision) :
    (x.round p).WordScale := by
  unfold Decimal.round
  dsimp only
  split_ifs
  · exact hx
  · exact wordScale_wrap64 _ _
  · exact wordScale_wrap64 _ _

theorem checked_ok {x y : Decimal} (h : x.checked = .ok y) : y = x := by
  unfold checked at h
  split_ifs at h
  exact (Except.ok.inj h).symm

theorem checked_ensures {x : Decimal} {P : Decimal → Prop} (hx : P x) : x.checked.Ensures P := by
  intro y hy
  rw [checked_ok hy]
  exact hx

theorem stripDigits_scale (m : Nat) (scale least : Int) :
    min scale least ≤ (stripDigits m scale least).2 ∧ (stripDigits m scale least).2 ≤ scale := by
  fun_induction stripDigits m scale least with
  | case1 m scale hstrip ih => omega
  | case2 m scale hkeep => omega

theorem WordScale.stripZerosTo {x : Decimal} (hx : x.WordScale) {least : Int}
    (hleast : int64Min ≤ least) : (x.stripZerosTo least).WordScale := by
  unfold Decimal.stripZerosTo
  split_ifs
  · exact wordScale_ofInt 0
  · have hbounds := stripDigits_scale x.mantissa.natAbs x.scale least
    rcases hstrip : stripDigits x.mantissa.natAbs x.scale least with ⟨m, s⟩
    rw [hstrip] at hbounds
    obtain ⟨hx1, hx2⟩ := hx
    exact ⟨by simp only at hbounds ⊢; omega, by simp only at hbounds ⊢; omega⟩

theorem WordScale.exactAdd {x y : Decimal} (hx : x.WordScale) (hy : y.WordScale) :
    (x.exactAdd y).WordScale := by
  obtain ⟨hx1, hx2⟩ := hx
  obtain ⟨hy1, hy2⟩ := hy
  constructor <;> simp only [Decimal.exactAdd] <;> omega

theorem add_ensures {x y : Decimal} (hx : x.WordScale) (hy : y.WordScale) (p : Precision) :
    (x.add y p).Ensures WordScale := by
  unfold add
  by_cases hx0 : x.mantissa = 0
  · rw [if_pos hx0]
    exact checked_ensures (hy.round p)
  rw [if_neg hx0]
  by_cases hy0 : y.mantissa = 0
  · rw [if_pos hy0]
    exact checked_ensures (hx.round p)
  rw [if_neg hy0]
  extract_lets ex ey
  split
  next big bigExp small smallExp hsel =>
    have hwords : big.WordScale ∧ small.WordScale := by
      split_ifs at hsel <;> cases hsel
      · exact ⟨hx, hy⟩
      · exact ⟨hy, hx⟩
    extract_lets floor small'
    apply checked_ensures
    apply WordScale.round
    apply hwords.1.exactAdd
    show (if smallExp < floor then (⟨small.mantissa.sign, wrap64 (-floor)⟩ : Decimal) else small).WordScale
    split_ifs
    · exact wordScale_wrap64 _ _
    · exact hwords.2

theorem sub_ensures {x y : Decimal} (hx : x.WordScale) (hy : y.WordScale) (p : Precision) :
    (x.sub y p).Ensures WordScale :=
  add_ensures hx hy.neg p

theorem mul_ensures (x y : Decimal) (p : Precision) : (x.mul y p).Ensures WordScale :=
  checked_ensures ((wordScale_wrap64 _ _).round p)

theorem div_ensures (x y : Decimal) (p : Precision) : (x.div y p).Ensures WordScale := by
  unfold div
  split_ifs
  · exact Except.ensures_error _
  · exact Except.ensures_ok (wordScale_ofInt 0)
  · apply checked_ensures
    exact WordScale.stripZerosTo ((wordScale_wrap64 _ _).round p) (wrap64_mem _).1

end Decimal

namespace Elementary

open Decimal

theorem finish_ensures {x : Decimal} (hx : x.WordScale) (p : Precision) :
    (finish x p).Ensures WordScale :=
  checked_ensures ((hx.round p).stripZerosTo (by decide))

theorem sumSeries_ensures {w : Precision} {next : Nat → Decimal → Except Fault (Decimal × Decimal)}
    (hnext : ∀ n state, (next n state).Ensures fun r => r.2.WordScale) (fuel n : Nat)
    (state : Decimal) {sum : Decimal} (hsum : sum.WordScale) :
    (sumSeries w next fuel n state sum).Ensures WordScale := by
  induction fuel generalizing n state sum with
  | zero => exact Except.ensures_ok hsum
  | succ fuel ih =>
    unfold sumSeries
    refine Except.ensures_bind (hnext n state) fun r hterm => ?_
    obtain ⟨state', term⟩ := r
    apply Except.ensures_ite
    · intro _
      exact Except.ensures_ok hsum
    · intro _
      exact Except.ensures_bind (add_ensures hsum hterm w) fun sum' hsum' => ih _ _ hsum'

theorem series_ensures {w : Precision} {next : Nat → Decimal → Except Fault (Decimal × Decimal)}
    (hnext : ∀ n state, (next n state).Ensures fun r => r.2.WordScale) (start : Decimal)
    {first : Decimal} (hfirst : first.WordScale) : (series w next start first).Ensures WordScale :=
  sumSeries_ensures hnext _ _ _ hfirst

theorem pi_wordScale (p : Precision) : (pi p).WordScale := by
  apply WordScale.round
  have hp := p.digits_le
  unfold Precision.digitsLimit at hp
  exact ⟨by unfold int64Min; simp only [guardDigits]; omega, by unfold int64Max; simp only [guardDigits]; omega⟩

theorem squareTimes_ensures (w : Precision) (k : Nat) {s : Decimal} (hs : s.WordScale) :
    (squareTimes w k s).Ensures WordScale := by
  induction k generalizing s with
  | zero => exact Except.ensures_ok hs
  | succ k ih => exact Except.ensures_bind (mul_ensures s s w) fun s' hs' => ih hs'

theorem exp_ensures (x : Decimal) (p : Precision) : (exp x p).Ensures WordScale := by
  simp only [exp]
  refine Except.ensures_ite (fun _ => Except.ensures_pure (wordScale_ofInt 1)) fun _ => ?_
  refine Except.ensures_ite (fun _ => Except.ensures_throw_bind _ _) fun _ => ?_
  refine Except.ensures_bind_any fun halved => ?_
  refine Except.ensures_bind (series_ensures (fun n term => ?_) one (wordScale_ofInt 1))
    fun taylor htaylor => ?_
  · exact Except.ensures_bind_any fun _ =>
      Except.ensures_bind (div_ensures _ _ _) fun term hterm => Except.ensures_pure hterm
  refine Except.ensures_bind (squareTimes_ensures _ _ htaylor) fun sum hsum => ?_
  refine Except.ensures_ite (fun _ => ?_) fun _ => ?_
  · exact Except.ensures_bind (div_ensures _ _ _) fun sum' hsum' => finish_ensures hsum' p
  · exact Except.ensures_bind (Except.ensures_pure hsum) fun sum' hsum' => finish_ensures hsum' p

theorem eulerNumber_ensures (p : Precision) : (eulerNumber p).Ensures WordScale :=
  exp_ensures one p

theorem lnSeries_ensures (r : Decimal) (w : Precision) : (lnSeries r w).Ensures WordScale := by
  simp only [lnSeries]
  refine Except.ensures_bind_any fun _ => Except.ensures_bind_any fun _ =>
    Except.ensures_bind_any fun z => ?_
  refine Except.ensures_ite (fun _ => Except.ensures_pure (wordScale_ofInt 0)) fun _ => ?_
  exact Except.ensures_bind_any fun _ => Except.ensures_bind_any fun sum => mul_ensures sum 2 w

theorem add_mul_ensures {res : Decimal} (hres : res.WordScale) (c : Except Fault Decimal)
    (k : Decimal) (w : Precision) :
    (c >>= fun a => a.mul k w >>= fun b => res.add b w).Ensures WordScale :=
  Except.ensures_bind_any fun a =>
    Except.ensures_bind (mul_ensures a k w) fun _ hb => add_ensures hres hb w

theorem lnPositive_ensures (x : Decimal) (w : Precision) :
    (lnPositive x w).Ensures WordScale := by
  simp only [lnPositive]
  refine Except.ensures_ite (fun _ => Except.ensures_pure (wordScale_ofInt 0)) fun _ => ?_
  refine Except.ensures_ite (fun _ => lnSeries_ensures x _) fun _ => ?_
  refine Except.ensures_bind_any fun halved => ?_
  refine Except.ensures_bind (lnSeries_ensures _ _) fun res hres => ?_
  refine Except.ensures_ite (fun _ => ?_) fun _ => ?_
  · refine Except.ensures_bind_any fun _ =>
      Except.ensures_bind (mul_ensures _ _ _) fun _ htwos => ?_
    refine Except.ensures_bind (add_ensures hres htwos _) fun res' hres' => ?_
    exact Except.ensures_ite (fun _ => add_mul_ensures hres' _ _ _)
      fun _ => Except.ensures_pure hres'
  · refine Except.ensures_bind (Except.ensures_pure hres) fun res' hres' => ?_
    exact Except.ensures_ite (fun _ => add_mul_ensures hres' _ _ _)
      fun _ => Except.ensures_pure hres'

theorem ln_ensures (x : Decimal) (p : Precision) : (ln x p).Ensures WordScale := by
  simp only [ln]
  refine Except.ensures_ite (fun _ => Except.ensures_throw _) fun _ => ?_
  exact Except.ensures_bind (lnPositive_ensures _ _) fun _ hv => finish_ensures hv p

theorem log10_ensures (x : Decimal) (p : Precision) : (log10 x p).Ensures WordScale := by
  simp only [log10]
  refine Except.ensures_ite (fun _ => Except.ensures_throw _) fun _ => ?_
  refine Except.ensures_bind_any fun _ => Except.ensures_bind_any fun _ => ?_
  exact Except.ensures_bind (div_ensures _ _ _) fun _ hv => finish_ensures hv p

theorem powerLoop_ensures (w : Precision) (e : Nat) {acc b : Decimal} (hacc : acc.WordScale)
    (hb : b.WordScale) : (powerLoop w e acc b).Ensures WordScale := by
  induction e using Nat.strong_induction_on generalizing acc b with
  | _ e ih =>
    rw [powerLoop]
    refine Except.ensures_ite (fun _ => Except.ensures_ok hacc) fun he => ?_
    simp only []
    have hstep : ∀ acc' : Decimal, acc'.WordScale →
        (if e / 2 > 0 then b.mul b w >>= fun b' => powerLoop w (e / 2) acc' b'
          else pure b >>= fun b' => powerLoop w (e / 2) acc' b').Ensures WordScale := by
      intro acc' hacc'
      refine Except.ensures_ite (fun _ => ?_) fun _ => ?_
      · exact Except.ensures_bind (mul_ensures b b w) fun b' hb' => ih _ (by omega) hacc' hb'
      · exact Except.ensures_bind (Except.ensures_pure hb) fun b' hb' => ih _ (by omega) hacc' hb'
    refine Except.ensures_ite (fun _ => ?_) fun _ => ?_
    · exact Except.ensures_bind (mul_ensures acc b w) hstep
    · exact Except.ensures_bind (Except.ensures_pure hacc) hstep

theorem integerPower_ensures {x : Decimal} (hx : x.WordScale) (n : Int) (p : Precision) :
    (integerPower x n p).Ensures WordScale := by
  simp only [integerPower]
  refine Except.ensures_ite (fun _ => Except.ensures_pure (wordScale_ofInt 1)) fun _ => ?_
  refine Except.ensures_ite (fun _ => ?_) fun _ => ?_
  · exact Except.ensures_ite (fun _ => Except.ensures_throw _)
      fun _ => Except.ensures_pure (wordScale_ofInt 0)
  · refine Except.ensures_bind (powerLoop_ensures _ _ (wordScale_ofInt 1) hx) fun acc hacc => ?_
    exact Except.ensures_ite (fun _ => div_ensures _ _ _)
      fun _ => checked_ensures (hacc.round p)

theorem power_ensures {x : Decimal} (hx : x.WordScale) (y : Decimal) (p : Precision) :
    (power x y p).Ensures WordScale := by
  unfold power
  extract_lets extra w general signCheck zeroCheck
  have hgeneral : ∀ u, (general u).Ensures WordScale := fun _ =>
    Except.ensures_bind_any fun _ => Except.ensures_bind_any fun _ =>
      Except.ensures_bind (exp_ensures _ _) fun r hr =>
        Except.ensures_pure (by split_ifs; exacts [hr.neg, hr])
  have hsign : ∀ u, (signCheck u).Ensures WordScale := fun _ =>
    Except.ensures_ite (fun _ => Except.ensures_bind_any fun u => hgeneral u) fun _ => hgeneral ()
  have hzero : ∀ u, (zeroCheck u).Ensures WordScale := fun _ =>
    Except.ensures_ite
      (fun _ => Except.ensures_ite (fun _ => Except.ensures_throw_bind _ _)
        fun _ => Except.ensures_pure (wordScale_ofInt 0))
      fun _ => hsign ()
  split
  · exact Except.ensures_ite (fun _ => integerPower_ensures hx _ p) fun _ => hzero ()
  · exact hzero ()

theorem multiplyFactors_ensures (w : Precision) (count next : Nat) {acc : Decimal}
    (hacc : acc.WordScale) : (multiplyFactors w count next acc).Ensures WordScale := by
  induction count generalizing next acc with
  | zero => exact Except.ensures_ok hacc
  | succ count ih =>
    exact Except.ensures_bind (mul_ensures _ _ _) fun acc' hacc' => ih (next + 1) hacc'

theorem factorial_ensures (n : Nat) (p : Precision) : (factorial n p).Ensures WordScale :=
  Except.ensures_bind (multiplyFactors_ensures _ _ _ (wordScale_ofInt 1)) fun _ hacc =>
    checked_ensures (hacc.round p)

theorem sqrt_ensures (x : Decimal) (p : Precision) : (sqrt x p).Ensures WordScale := by
  simp only [sqrt]
  refine Except.ensures_ite (fun _ => Except.ensures_throw_bind _ _) fun _ => ?_
  refine Except.ensures_ite (fun _ => Except.ensures_pure (wordScale_ofInt 0)) fun _ => ?_
  exact finish_ensures (wordScale_wrap64_div_two _ _) p

theorem reduceAngle_ensures {x : Decimal} (hx : x.WordScale) (w : Precision) :
    (reduceAngle x w).Ensures WordScale := by
  simp only [reduceAngle]
  refine Except.ensures_bind_any fun twoPi => Except.ensures_bind_any fun _ => ?_
  refine Except.ensures_ite (fun _ => Except.ensures_pure hx) fun _ => ?_
  exact Except.ensures_bind (mul_ensures _ _ _) fun _ hmul => sub_ensures hx hmul w

theorem sinSeries_ensures {r : Decimal} (hr : r.WordScale) (w : Precision) :
    (sinSeries r w).Ensures WordScale := by
  simp only [sinSeries]
  refine Except.ensures_ite (fun _ => Except.ensures_pure (wordScale_ofInt 0)) fun _ => ?_
  refine Except.ensures_bind_any fun r2 => series_ensures (fun n term => ?_) r hr
  exact Except.ensures_bind_any fun _ => Except.ensures_bind (div_ensures _ _ _) fun term hterm =>
    Except.ensures_pure hterm.neg

theorem cosSeries_ensures (r : Decimal) (w : Precision) : (cosSeries r w).Ensures WordScale := by
  simp only [cosSeries]
  refine Except.ensures_bind_any fun r2 => series_ensures (fun n term => ?_) one (wordScale_ofInt 1)
  exact Except.ensures_bind_any fun _ => Except.ensures_bind (div_ensures _ _ _) fun term hterm =>
    Except.ensures_pure hterm.neg

theorem sin_ensures {x : Decimal} (hx : x.WordScale) (p : Precision) :
    (sin x p).Ensures WordScale := by
  simp only [sin]
  refine Except.ensures_ite (fun _ => Except.ensures_pure (wordScale_ofInt 0)) fun _ => ?_
  refine Except.ensures_bind_any fun w => ?_
  refine Except.ensures_bind (reduceAngle_ensures hx w) fun r hr => ?_
  exact Except.ensures_bind (sinSeries_ensures hr w) fun _ hs => finish_ensures hs p

theorem cos_ensures (x : Decimal) (p : Precision) : (cos x p).Ensures WordScale := by
  simp only [cos]
  refine Except.ensures_ite (fun _ => Except.ensures_pure (wordScale_ofInt 1)) fun _ => ?_
  refine Except.ensures_bind_any fun w => Except.ensures_bind_any fun r => ?_
  exact Except.ensures_bind (cosSeries_ensures r w) fun _ hc => finish_ensures hc p

theorem tan_ensures (x : Decimal) (p : Precision) : (tan x p).Ensures WordScale := by
  simp only [tan]
  refine Except.ensures_ite (fun _ => Except.ensures_pure (wordScale_ofInt 0)) fun _ => ?_
  refine Except.ensures_bind_any fun w => Except.ensures_bind_any fun r =>
    Except.ensures_bind_any fun s => Except.ensures_bind_any fun c => ?_
  exact Except.ensures_bind (div_ensures s c w) fun _ hq => finish_ensures hq p

theorem arctanWorking_ensures (x : Decimal) (w : Precision) :
    (arctanWorking x w).Ensures WordScale := by
  unfold arctanWorking
  refine Except.ensures_ite (fun _ => Except.ensures_pure (wordScale_ofInt 0)) fun _ => ?_
  extract_lets inverted finalSign afterReduction
  have hsign : ∀ res : Decimal, res.WordScale → (finalSign res).Ensures WordScale :=
    fun res hres => Except.ensures_pure (by split_ifs; exacts [hres.neg, hres])
  have hafter : ∀ a, (afterReduction a).Ensures WordScale := by
    intro a
    refine Except.ensures_bind_any fun halved => ?_
    obtain ⟨a', doublings⟩ := halved
    refine Except.ensures_bind_any fun a2 => Except.ensures_bind_any fun sum => ?_
    refine Except.ensures_bind (mul_ensures _ _ _) fun res hres => ?_
    refine Except.ensures_ite (fun _ => ?_)
      fun _ => Except.ensures_bind (Except.ensures_pure hres) hsign
    exact Except.ensures_bind (div_ensures _ _ _) fun _ hhalf =>
      Except.ensures_bind (sub_ensures hhalf hres w) hsign
  exact Except.ensures_ite (fun _ => Except.ensures_bind_any hafter)
    fun _ => Except.ensures_bind_any hafter

theorem arctan_ensures (x : Decimal) (p : Precision) : (arctan x p).Ensures WordScale :=
  Except.ensures_bind (arctanWorking_ensures _ _) fun _ hv => finish_ensures hv p

theorem arcsinWorking_ensures (x : Decimal) (w : Precision) :
    (arcsinWorking x w).Ensures WordScale := by
  simp only [arcsinWorking]
  refine Except.ensures_ite (fun _ => ?_) fun _ => ?_
  · refine Except.ensures_bind (div_ensures _ _ _) fun halfPi hhalf => Except.ensures_pure ?_
    split_ifs
    · exact hhalf.neg
    · exact hhalf
  · exact Except.ensures_bind_any fun _ => Except.ensures_bind_any fun _ =>
      Except.ensures_bind_any fun _ => Except.ensures_bind_any fun _ => arctanWorking_ensures _ _

theorem arcsin_ensures (x : Decimal) (p : Precision) : (arcsin x p).Ensures WordScale := by
  simp only [arcsin]
  refine Except.ensures_ite (fun _ => Except.ensures_throw_bind _ _) fun _ => ?_
  exact Except.ensures_bind (arcsinWorking_ensures _ _) fun _ hv => finish_ensures hv p

theorem arccos_ensures (x : Decimal) (p : Precision) : (arccos x p).Ensures WordScale := by
  simp only [arccos]
  refine Except.ensures_ite (fun _ => Except.ensures_throw_bind _ _) fun _ => ?_
  refine Except.ensures_ite (fun _ => Except.ensures_pure (wordScale_ofInt 0)) fun _ => ?_
  refine Except.ensures_ite (fun _ => finish_ensures (pi_wordScale _) p) fun _ => ?_
  refine Except.ensures_bind_any fun _ => Except.ensures_bind_any fun _ =>
    Except.ensures_bind_any fun _ => Except.ensures_bind_any fun _ =>
      Except.ensures_bind_any fun _ => ?_
  exact Except.ensures_bind (mul_ensures _ _ _) fun _ hv => finish_ensures hv p

theorem sinhSeries_ensures {x : Decimal} (hx : x.WordScale) (w : Precision) :
    (sinhSeries x w).Ensures WordScale := by
  simp only [sinhSeries]
  refine Except.ensures_bind_any fun x2 => series_ensures (fun n term => ?_) x hx
  exact Except.ensures_bind_any fun _ => Except.ensures_bind (div_ensures _ _ _) fun term hterm =>
    Except.ensures_pure hterm

theorem sinhWorking_ensures {x : Decimal} (hx : x.WordScale) (w : Precision) :
    (sinhWorking x w).Ensures WordScale := by
  simp only [sinhWorking]
  refine Except.ensures_ite (fun _ => sinhSeries_ensures hx w) fun _ => ?_
  exact Except.ensures_bind_any fun _ => Except.ensures_bind_any fun _ => div_ensures _ _ _

theorem coshWorking_ensures (x : Decimal) (w : Precision) :
    (coshWorking x w).Ensures WordScale := by
  simp only [coshWorking]
  exact Except.ensures_bind_any fun _ => Except.ensures_bind_any fun _ => div_ensures _ _ _

theorem sinh_ensures {x : Decimal} (hx : x.WordScale) (p : Precision) :
    (sinh x p).Ensures WordScale := by
  simp only [sinh]
  refine Except.ensures_ite (fun _ => Except.ensures_pure (wordScale_ofInt 0)) fun _ => ?_
  exact Except.ensures_bind (sinhWorking_ensures hx _) fun _ hv => finish_ensures hv p

theorem cosh_ensures (x : Decimal) (p : Precision) : (cosh x p).Ensures WordScale := by
  simp only [cosh]
  refine Except.ensures_ite (fun _ => Except.ensures_pure (wordScale_ofInt 1)) fun _ => ?_
  exact Except.ensures_bind (coshWorking_ensures _ _) fun _ hv => finish_ensures hv p

theorem tanh_ensures (x : Decimal) (p : Precision) : (tanh x p).Ensures WordScale := by
  simp only [tanh]
  refine Except.ensures_ite (fun _ => Except.ensures_pure (wordScale_ofInt 0)) fun _ => ?_
  refine Except.ensures_ite (fun _ => Except.ensures_pure ?_) fun _ => ?_
  · split_ifs
    · exact (wordScale_ofInt 1).neg
    · exact wordScale_ofInt 1
  · refine Except.ensures_bind_any fun s => Except.ensures_bind_any fun c => ?_
    exact Except.ensures_bind (div_ensures s c _) fun _ hv => finish_ensures hv p

theorem Function.apply_ensures (f : Function) {x : Decimal} (hx : x.WordScale) (p : Precision) :
    (f.apply x p).Ensures WordScale := by
  cases f with
  | sin => exact sin_ensures hx p
  | cos => exact cos_ensures x p
  | tan => exact tan_ensures x p
  | arcsin => exact arcsin_ensures x p
  | arccos => exact arccos_ensures x p
  | arctan => exact arctan_ensures x p
  | sinh => exact sinh_ensures hx p
  | cosh => exact cosh_ensures x p
  | tanh => exact tanh_ensures x p
  | sqrt => exact sqrt_ensures x p
  | log => exact log10_ensures x p
  | ln => exact ln_ensures x p
  | exp => exact exp_ensures x p

end Elementary

end Calculator
