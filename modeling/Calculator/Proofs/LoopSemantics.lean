import Calculator.Elementary.Arctan
import Calculator.Elementary.Exp
import Calculator.Proofs.Outcomes
/-!
Loops run with no bound on their steps. A loop is given by its body: from a state, one pass goes
on to a next state, stops with a result, or fails. `Ends body s r` says that the loop from `s`,
run for as many passes as it takes, ends with `r`; a loop ends with one result at most.
-/

open Except

namespace Calculator.Elementary

open Decimal

section Loops

variable {σ β : Type} (body : σ → Except Fault (σ ⊕ β))

inductive Ends : σ → Except Fault β → Prop
  | fails {s : σ} {e : Fault} : body s = .error e → Ends s (.error e)
  | stops {s : σ} {b : β} : body s = .ok (.inr b) → Ends s (.ok b)
  | goes {s s' : σ} {r : Except Fault β} : body s = .ok (.inl s') → Ends s' r → Ends s r

variable {body}

theorem Ends.unique {s : σ} {r r' : Except Fault β} (h : Ends body s r) (h' : Ends body s r') :
    r = r' := by
  induction h generalizing r' with
  | fails hs =>
    cases h' with
    | fails hs' => rw [hs] at hs'; cases hs'; rfl
    | stops hs' => rw [hs] at hs'; cases hs'
    | goes hs' _ => rw [hs] at hs'; cases hs'
  | stops hs =>
    cases h' with
    | fails hs' => rw [hs] at hs'; cases hs'
    | stops hs' => rw [hs] at hs'; cases hs'; rfl
    | goes hs' _ => rw [hs] at hs'; cases hs'
  | goes hs _ ih =>
    cases h' with
    | fails hs' => rw [hs] at hs'; cases hs'
    | stops hs' => rw [hs] at hs'; cases hs'
    | goes hs' hrest => rw [hs] at hs'; cases hs'; exact ih hrest

variable (body)

def runFor (out : σ → β) : Nat → σ → Except Fault β
  | 0, s => .ok (out s)
  | fuel + 1, s =>
    match body s with
    | .error e => .error e
    | .ok (.inl s') => runFor out fuel s'
    | .ok (.inr b) => .ok b

variable {body}

theorem ends_runFor (out : σ → β) (Inv : Nat → σ → Prop) (N : Nat)
    (hstep : ∀ k s, k < N → Inv k s →
      (body s).Meets (Sum.elim (Inv (k + 1)) fun _ => True) fun _ => True)
    (hlast : ∀ s, Inv N s → body s = .ok (.inr (out s))) :
    ∀ fuel k s, k + fuel = N → Inv k s → Ends body s (runFor body out fuel s) := by
  intro fuel
  induction fuel with
  | zero =>
    intro k s hk hs
    obtain rfl : k = N := hk
    exact .stops (hlast s hs)
  | succ fuel ih =>
    intro k s hk hs
    have hpass := hstep k s (by omega) hs
    rw [runFor]
    split
    · rename_i e he
      exact .fails he
    · rename_i s' hs'
      exact .goes hs' (ih (k + 1) s' (by omega) (hpass.of_ok hs'))
    · rename_i b hb
      exact .stops hb

end Loops

/-! Series -/

section Series

variable (w : Precision) (next : Nat → Decimal → Except Fault (Decimal × Decimal))

def seriesBody (s : Nat × Decimal × Decimal) :
    Except Fault ((Nat × Decimal × Decimal) ⊕ Decimal) := do
  let (state, term) ← next s.1 s.2.1
  if negligible term s.2.2 w then return .inr s.2.2
  return .inl (s.1 + 1, state, ← s.2.2.add term w)

theorem sumSeries_eq_runFor : ∀ (fuel n : Nat) (state sum : Decimal),
    sumSeries w next fuel n state sum =
      runFor (seriesBody w next) (fun s => s.2.2) fuel (n, state, sum) := by
  intro fuel
  induction fuel with
  | zero => intro n state sum; rfl
  | succ fuel ih =>
    intro n state sum
    rw [sumSeries, runFor, seriesBody]
    cases hnext : next n state with
    | error e => rfl
    | ok res =>
      obtain ⟨state', term⟩ := res
      simp only [bind, Except.bind]
      by_cases hneg : negligible term sum w = true
      · simp only [hneg, if_true]
        rfl
      · simp only [hneg, Bool.false_eq_true, if_false]
        cases hadd : sum.add term w with
        | error e => rfl
        | ok sum' => exact ih (n + 1) state' sum'

variable {w next}

theorem series_ends (Inv : Nat → Decimal → Decimal → Prop)
    (hstep : ∀ n state sum, n < 1 + seriesFuel w → Inv n state sum → (next n state).Meets
      (fun r => negligible r.2 sum w = false → (sum.add r.2 w).Meets (Inv (n + 1) r.1)
        fun _ => True) fun _ => True)
    (hdead : ∀ state sum, ¬Inv (1 + seriesFuel w) state sum) {start first : Decimal}
    (h : Inv 1 start first) :
    Ends (seriesBody w next) (1, start, first) (series w next start first) := by
  rw [series, sumSeries_eq_runFor]
  refine ends_runFor _ (fun k s => s.1 = k + 1 ∧ Inv s.1 s.2.1 s.2.2) (seriesFuel w)
    (fun k s hk hs => ?_) (fun s hs => absurd hs.2 (by rw [hs.1, Nat.add_comm]; exact hdead _ _))
    (seriesFuel w) 0 _ (Nat.zero_add _) ⟨rfl, h⟩
  obtain ⟨n, state, sum⟩ := s
  obtain ⟨rfl, hinv⟩ := hs
  refine meets_bind (hstep (k + 1) state sum (by omega) hinv) fun r hr => ?_
  obtain ⟨state', term⟩ := r
  by_cases hneg : negligible term sum w = true
  · simp only [hneg, if_true]
    exact meets_pure trivial
  · simp only [hneg, Bool.false_eq_true, if_false]
    exact meets_bind (hr (Bool.eq_false_iff.mpr hneg)) fun sum' hsum' =>
      meets_pure ⟨rfl, hsum'⟩

end Series

/-! Loops that repeat a step while a test holds -/

section While

variable {σ : Type} (cond : σ → Prop) [DecidablePred cond] (step : σ → Except Fault σ)

def whileBody (s : σ) : Except Fault (σ ⊕ σ) :=
  if cond s then do return .inl (← step s) else .ok (.inr s)

variable {cond step}

theorem whileBody_ends (Inv : Nat → σ → Prop) (N : Nat)
    (hstep : ∀ k s, k < N → Inv k s → cond s → (step s).Meets (Inv (k + 1)) fun _ => True)
    (hlast : ∀ s, Inv N s → ¬cond s) (fuel k : Nat) {s : σ} (hN : k + fuel = N) (h : Inv k s) :
    Ends (whileBody cond step) s (runFor (whileBody cond step) id fuel s) := by
  refine ends_runFor id Inv N (fun k s hk hs => ?_) (fun s hs => ?_) fuel k s hN h
  · unfold whileBody
    refine meets_ite (fun hc => ?_) fun _ => meets_ok trivial
    exact meets_bind (hstep k s hk hs hc) fun s' hs' => meets_pure hs'
  · unfold whileBody
    rw [if_neg (hlast s hs)]
    rfl

theorem counted_ends {α : Type} {cond : α × Nat → Prop} [DecidablePred cond]
    {step : α × Nat → Except Fault (α × Nat)} (P : α → Nat → Prop) (N : Nat)
    (hstep : ∀ r c, c < N → P r c → cond (r, c) →
      (step (r, c)).Meets (fun s => s.2 = c + 1 ∧ P s.1 s.2) fun _ => True)
    (hlast : ∀ r, P r N → ¬cond (r, N)) {a : α} (h : P a 0) :
    Ends (whileBody cond step) (a, 0) (runFor (whileBody cond step) id N (a, 0)) := by
  refine whileBody_ends (fun k s => s.2 = k ∧ P s.1 s.2) N (fun k s hk hs hc => ?_)
    (fun s hs => ?_) N 0 (Nat.zero_add _) ⟨rfl, h⟩
  · obtain ⟨r, c⟩ := s
    obtain ⟨rfl, hr⟩ : c = k ∧ P r c := hs
    exact hstep r c hk hr hc
  · obtain ⟨r, c⟩ := s
    obtain ⟨rfl, hr⟩ : c = N ∧ P r c := hs
    exact hlast r hr

theorem runFor_whileBody_succ (fuel : Nat) (s : σ) :
    runFor (whileBody cond step) id (fuel + 1) s =
      if cond s then step s >>= runFor (whileBody cond step) id fuel else .ok s := by
  rw [runFor, whileBody]
  by_cases hc : cond s
  · simp only [hc, if_true]
    cases step s <;> rfl
  · simp only [hc, if_false]

end While

def halvingStep (w : Precision) (s : Decimal × Nat) : Except Fault (Decimal × Nat) := do
  return (← s.1.div 2 w, s.2 + 1)

theorem halveWhileAbove_eq_runFor (bound : Decimal) (w : Precision) : ∀ (fuel : Nat)
    (r : Decimal) (count : Nat), halveWhileAbove bound w fuel r count =
      runFor (whileBody (fun s => bound < s.1) (halvingStep w)) id fuel (r, count) := by
  intro fuel
  induction fuel with
  | zero => intro r count; rfl
  | succ fuel ih =>
    intro r count
    rw [halveWhileAbove, runFor_whileBody_succ]
    split
    · simp only [halvingStep, bind_assoc, pure_bind, ih]
    · rfl

def angleStep (w : Precision) (s : Decimal × Nat) : Except Fault (Decimal × Nat) := do
  let square ← s.1.mul s.1 w
  let root ← sqrt (← one.add square w) w
  return (← s.1.div (← one.add root w) w, s.2 + 1)

theorem halveAngle_eq_runFor (w : Precision) : ∀ (fuel : Nat) (a : Decimal) (count : Nat),
    halveAngle w fuel a count =
      runFor (whileBody (fun s => tenth < s.1) (angleStep w)) id fuel (a, count) := by
  intro fuel
  induction fuel with
  | zero => intro a count; rfl
  | succ fuel ih =>
    intro a count
    rw [halveAngle, runFor_whileBody_succ]
    split
    · simp only [angleStep, bind_assoc, pure_bind, ih]
    · rfl

end Calculator.Elementary
