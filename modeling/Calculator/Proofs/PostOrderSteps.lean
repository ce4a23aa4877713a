import Calculator.Proofs.Soundness

namespace Calculator.Evaluation

open Elementary

/-! The steps an evaluation records. On the tokens of a tree of the grammar the evaluator records
the tree's operator, negation, factorial and call nodes in post-order, each with the values it is
applied to, and stops after the first node that fails: a node records its step before its own
arithmetic, so a node that fails is still recorded, but nothing after it is. -/

def Eval.Performs {α : Type} (x : Eval α) (steps : List Step) (v : Except Fault α) : Prop :=
  ∀ trace, x.run.run trace = (v, trace ++ steps.toArray)

def stepsAfter {α : Type} (v : Except Fault α) (next : α → List Step) : List Step :=
  match v with
  | .ok a => next a
  | .error _ => []

theorem append_nil_toArray (trace : Array Step) : trace ++ ([] : List Step).toArray = trace := by
  simp

theorem Eval.performs_pure {α : Type} (a : α) : (pure a : Eval α).Performs [] (.ok a) := by
  intro trace
  rw [append_nil_toArray]
  rfl

theorem Eval.performs_throw {α : Type} (f : Fault) : (throw f : Eval α).Performs [] (.error f) := by
  intro trace
  rw [append_nil_toArray]
  rfl

theorem Eval.performs_lift {α : Type} (v : Except Fault α) : (lift v).Performs [] v := by
  cases v with
  | ok a => exact Eval.performs_pure a
  | error f => exact Eval.performs_throw f

theorem Eval.performs_record (step : Step) : (record step).Performs [step] (.ok ()) := by
  intro trace
  rw [show trace ++ [step].toArray = trace.push step by simp]
  rfl

theorem Eval.Performs.bind {α β : Type} {x : Eval α} {f : α → Eval β} {sx : List Step}
    {vx : Except Fault α} {sf : α → List Step} {g : α → Except Fault β}
    (hx : x.Performs sx vx) (hf : ∀ a, (f a).Performs (sf a) (g a)) :
    (x >>= f).Performs (sx ++ stepsAfter vx sf) (vx >>= g) := by
  intro trace
  rw [Eval.run_bind, hx trace]
  cases vx with
  | error e =>
    show (Except.error e, trace ++ sx.toArray) = (Except.error e, trace ++ (sx ++ []).toArray)
    rw [List.append_nil]
  | ok a =>
    show (f a).run.run (trace ++ sx.toArray) = (g a, trace ++ (sx ++ sf a).toArray)
    rw [hf a]
    simp

theorem stepsAfter_nil {α : Type} (v : Except Fault α) : stepsAfter v (fun _ => []) = [] := by
  cases v <;> rfl

theorem Eval.Performs.bind_silent {α β : Type} {x : Eval α} {f : α → Eval β} {sx : List Step}
    {vx : Except Fault α} {g : α → Except Fault β} (hx : x.Performs sx vx)
    (hf : ∀ a, (f a).Performs [] (g a)) : (x >>= f).Performs sx (vx >>= g) := by
  have h := hx.bind hf
  rwa [stepsAfter_nil, List.append_nil] at h

theorem Eval.Performs.bind_record {α β : Type} {x : Eval α} {f : α → Eval β} {sx : List Step}
    {vx : Except Fault α} {g : α → Except Fault β} (step : α → Step) (hx : x.Performs sx vx)
    (hf : ∀ a, (f a).Performs [] (g a)) :
    (x >>= fun a => record (step a) >>= fun _ => f a).Performs
      (sx ++ stepsAfter vx fun a => [step a]) (vx >>= g) := by
  refine hx.bind fun a => ?_
  exact (Eval.performs_record (step a)).bind_silent (f := fun _ => f a) fun _ => hf a

theorem readNumber_performs (text : String) : (readNumber text).Performs [] (literal text) := by
  unfold readNumber literal
  cases Decimal.ofString? text with
  | some x => exact Eval.performs_pure x
  | none => exact Eval.performs_throw _

def acceptedFactorial? (x : Decimal) : Option Nat :=
  match x.toInt64? with
  | some n => if 0 ≤ n ∧ n ≤ factorialLimit then some n.toNat else none
  | none => none

theorem factorialStep_performs (p : Precision) (x : Decimal) :
    (factorialStep p x).Performs ((acceptedFactorial? x).toList.map Step.factorial)
      (factorialRule x p) := by
  unfold factorialStep factorialRule acceptedFactorial?
  cases x.toInt64? with
  | some n =>
    dsimp only
    by_cases hrange : 0 ≤ n ∧ n ≤ factorialLimit
    · rw [if_pos hrange, if_pos hrange, if_pos hrange]
      exact (Eval.performs_record (.factorial n.toNat)).bind_silent
        (f := fun _ => lift (factorial n.toNat p)) fun _ => Eval.performs_lift _
    · rw [if_neg hrange, if_neg hrange, if_neg hrange]
      exact Eval.performs_throw _
  | none => exact Eval.performs_throw _

namespace Expr

def steps (p : Precision) : Expr → List Step
  | number _ | negNumber _ | constant _ => []
  | paren e => e.steps p
  | call f e => e.steps p ++ stepsAfter (e.value p) fun a => [.call f a]
  | factorial e =>
    e.steps p ++ stepsAfter (e.value p) fun v => (acceptedFactorial? v).toList.map Step.factorial
  | negation e => e.steps p ++ stepsAfter (e.value p) fun v => [.negation v]
  | binary op left right =>
    left.steps p ++ stepsAfter (left.value p) fun a =>
      right.steps p ++ stepsAfter (right.value p) fun b => [.operator op a b]

end Expr

theorem Expr.walk_performs (p : Precision) (e : Expr) :
    (e.walk p).Performs (e.steps p) (e.value p) := by
  induction e with
  | number text => exact readNumber_performs text
  | negNumber text => exact (readNumber_performs text).bind_silent fun _ => Eval.performs_pure _
  | constant c =>
    cases c with
    | pi => exact Eval.performs_pure _
    | e => exact Eval.performs_lift _
  | paren e ih => exact ih
  | call f e ih => exact ih.bind_record (Step.call f) fun _ => Eval.performs_lift _
  | factorial e ih => exact ih.bind fun v => factorialStep_performs p v
  | negation e ih => exact ih.bind_record Step.negation fun _ => Eval.performs_pure _
  | binary op left right ihLeft ihRight =>
    exact ihLeft.bind fun a =>
      ihRight.bind_record (Step.operator op a) fun _ => Eval.performs_lift _

theorem run_tokens_performs {e : Expr} (h : Derives .sum e) (p : Precision) :
    (run p e.tokens none [] []).Performs (e.steps p) (e.value p) := by
  have hsim := h.simulates p [] trivial none rfl [] [] trivial
  simp only [List.append_nil, run_nil, result_singleton, bind_pure] at hsim
  rw [hsim]
  exact e.walk_performs p

theorem evaluate_tokens_performs {e : Expr} (h : Derives .sum e) (p : Precision) :
    (evaluate e.tokens p).Performs (e.steps p) (e.value p >>= fun v => (v.round p).checked) :=
  (run_tokens_performs h p).bind_silent fun _ => Eval.performs_lift _

end Calculator.Evaluation
