import Calculator.Proofs.Acceptance
import Calculator.Proofs.WordScale

/-!
What every evaluated value satisfies. A property of decimals that literals and constants have
and that negation, the factorial, the binary operators and the functions keep (`KeepsValues`)
holds of every operand the evaluator stacks, hence of its result: the stacks are walked as in
the acceptance proof, one lemma for each way the operand stack changes. Scales being words is
such a property.
-/

namespace Calculator.Evaluation

open Elementary

structure KeepsValues (p : Precision) (P : Decimal → Prop) : Prop where
  literal : ∀ text, (literal text).Ensures P
  pi : P (pi p)
  euler : (eulerNumber p).Ensures P
  neg : ∀ x, P x → P (-x)
  binary : ∀ op a b, P a → P b → (binaryValue op a b p).Ensures P
  factorial : ∀ n, (factorial n p).Ensures P
  call : ∀ (f : Function) x, P x → (f.apply x p).Ensures P

theorem Eval.Yields.ok {α : Type} {x : Eval α} {v : Except Fault α} (hx : x.Yields v)
    {trace : Array Step} {a : α} (h : (x.run.run trace).1 = .ok a) : v = .ok a :=
  (hx trace).symm.trans h

section Stacks

variable {p : Precision} {P : Decimal → Prop} {trace : Array Step}

theorem applyDeferred_keeps (hP : KeepsValues p P) {d : Deferred}
    {operands operands' : List Decimal} (hops : ∀ v ∈ operands, P v)
    (h : ((applyDeferred p d operands).run.run trace).1 = .ok operands') :
    ∀ v ∈ operands', P v := by
  rcases d with op | _ | _ <;> rcases operands with _ | ⟨b, _ | ⟨a, rest⟩⟩ <;>
    simp only [applyDeferred] at h
  all_goals first | exact (Eval.ok_throw h).elim | skip
  · obtain ⟨_, _, h⟩ := Eval.ok_of_bind h
    obtain ⟨w, hvalue, h⟩ := Eval.ok_of_bind h
    cases Eval.ok_pure h
    have hw : P w := hP.binary op a b (hops a (by simp)) (hops b (by simp)) w (Eval.ok_lift hvalue)
    intro v hv
    rcases List.mem_cons.mp hv with rfl | hv
    · exact hw
    · exact hops v (by simp [hv])
  · obtain ⟨_, _, h⟩ := Eval.ok_of_bind h
    cases Eval.ok_pure h
    intro v hv
    rcases List.mem_cons.mp hv with rfl | hv
    · exact hP.neg b (hops b List.mem_cons_self)
    · exact hops v (List.mem_cons_of_mem _ hv)
  · obtain ⟨_, _, h⟩ := Eval.ok_of_bind h
    cases Eval.ok_pure h
    intro v hv
    rcases List.mem_cons.mp hv with rfl | hv
    · exact hP.neg b (hops b List.mem_cons_self)
    · exact hops v (List.mem_cons_of_mem _ hv)

theorem reduceFor_keeps (hP : KeepsValues p P) {op : Operator} {deferred deferred' : List Deferred}
    {operands operands' : List Decimal} (hops : ∀ v ∈ operands, P v)
    (h : ((reduceFor p op deferred operands).run.run trace).1 = .ok (deferred', operands')) :
    ∀ v ∈ operands', P v := by
  induction deferred generalizing operands trace with
  | nil =>
    rw [reduceFor] at h
    obtain ⟨rfl, rfl⟩ := Prod.mk.inj (Eval.ok_pure h)
    exact hops
  | cons d rest ih =>
    by_cases hstop : d = .openParen ∨ d.precedence < (Deferred.binary op).precedence
    · rw [reduceFor_stop hstop] at h
      obtain ⟨rfl, rfl⟩ := Prod.mk.inj (Eval.ok_pure h)
      exact hops
    · rw [reduceFor_cons hstop] at h
      obtain ⟨middle, hmiddle, h⟩ := Eval.ok_of_bind h
      exact ih (applyDeferred_keeps hP hops hmiddle) h

theorem closeGroup_keeps (hP : KeepsValues p P) {deferred deferred' : List Deferred}
    {operands operands' : List Decimal} (hops : ∀ v ∈ operands, P v)
    (h : ((closeGroup p deferred operands).run.run trace).1 = .ok (deferred', operands')) :
    ∀ v ∈ operands', P v := by
  induction deferred generalizing operands trace with
  | nil => exact (Eval.ok_throw h).elim
  | cons d rest ih =>
    by_cases hd : d = .openParen
    · subst hd
      rw [closeGroup_openParen] at h
      obtain ⟨rfl, rfl⟩ := Prod.mk.inj (Eval.ok_pure h)
      exact hops
    · rw [closeGroup_cons hd] at h
      obtain ⟨middle, hmiddle, h⟩ := Eval.ok_of_bind h
      exact ih (applyDeferred_keeps hP hops hmiddle) h

theorem applyAll_keeps (hP : KeepsValues p P) {deferred : List Deferred}
    {operands operands' : List Decimal} (hops : ∀ v ∈ operands, P v)
    (h : ((applyAll p deferred operands).run.run trace).1 = .ok operands') :
    ∀ v ∈ operands', P v := by
  induction deferred generalizing operands trace with
  | nil =>
    rw [applyAll] at h
    cases Eval.ok_pure h
    exact hops
  | cons d rest ih =>
    rw [applyAll_cons] at h
    obtain ⟨middle, hmiddle, h⟩ := Eval.ok_of_bind h
    exact ih (applyDeferred_keeps hP hops hmiddle) h

theorem factorialOf_keeps (hP : KeepsValues p P) {operands operands' : List Decimal}
    (hops : ∀ v ∈ operands, P v)
    (h : ((factorialOf p operands).run.run trace).1 = .ok operands') : ∀ v ∈ operands', P v := by
  cases operands with
  | nil => exact (Eval.ok_throw h).elim
  | cons x rest =>
    rw [factorialOf_cons] at h
    obtain ⟨w, hfactorial, h⟩ := Eval.ok_of_bind h
    cases Eval.ok_pure h
    have hw : P w := by
      have hrule := (factorialStep_yields p x).ok hfactorial
      unfold factorialRule at hrule
      split at hrule
      · split_ifs at hrule
        exact hP.factorial _ w hrule
      · cases hrule
    intro v hv
    rcases List.mem_cons.mp hv with rfl | hv
    · exact hw
    · exact hops v (List.mem_cons_of_mem _ hv)

/-- Every value an evaluation gives has a property that literals and constants have and that
every operation keeps, when the operands it starts with have it. -/
theorem run_keeps (hP : KeepsValues p P) {tokens : List Token} {prev : Option Token}
    {operands : List Decimal} {deferred : List Deferred} {v : Decimal}
    (hops : ∀ v ∈ operands, P v)
    (h : ((run p tokens prev operands deferred).run.run trace).1 = .ok v) : P v := by
  fun_induction run p tokens prev operands deferred generalizing trace v with
  | case1 prev operands deferred =>
    obtain ⟨left, hleft, h⟩ := Eval.ok_of_bind h
    have hall := applyAll_keeps hP hops hleft
    rcases left with _ | ⟨w, _ | ⟨_, _⟩⟩
    · exact (Eval.ok_throw h).elim
    · cases Eval.ok_pure h
      exact hall v List.mem_cons_self
    · exact (Eval.ok_throw h).elim
  | case2 prev operands deferred rest text ih =>
    obtain ⟨x, hx, h⟩ := Eval.ok_of_bind h
    have hxP : P x := hP.literal text x ((readNumber_yields text).ok hx)
    exact ih x (fun w hw => (List.mem_cons.mp hw).elim (· ▸ hxP) (hops w)) h
  | case3 prev operands deferred rest c ih =>
    obtain ⟨x, hx, h⟩ := Eval.ok_of_bind h
    have hxP : P x := by
      cases c with
      | pi => exact Eval.ok_pure hx ▸ hP.pi
      | e => exact hP.euler x (Eval.ok_lift hx)
    exact ih x (fun w hw => (List.mem_cons.mp hw).elim (· ▸ hxP) (hops w)) h
  | case4 prev operands deferred rest ih =>
    obtain ⟨operands', hfactorial, h⟩ := Eval.ok_of_bind h
    exact ih operands' (factorialOf_keeps hP hops hfactorial) h
  | case5 prev operands deferred rest ih => exact ih hops h
  | case6 prev operands deferred rest ih =>
    obtain ⟨⟨deferred', operands'⟩, hclose, h⟩ := Eval.ok_of_bind h
    exact ih deferred' operands' (closeGroup_keeps hP hops hclose) h
  | case7 | case8 | case10 | case13 => exact (Eval.ok_throw h).elim
  | case9 prev operands deferred name f hf afterOpen inside after hsplit _ ihInside ihAfter =>
    obtain ⟨argument, hargument, h⟩ := Eval.ok_of_bind h
    obtain ⟨_, _, h⟩ := Eval.ok_of_bind h
    obtain ⟨w, hw, h⟩ := Eval.ok_of_bind h
    -- the argument is evaluated on empty stacks, so it has the property by itself
    have hargP : P argument := ihInside (fun _ hv => absurd hv List.not_mem_nil) hargument
    have hwP : P w := hP.call f argument hargP w (Eval.ok_lift hw)
    exact ihAfter w (fun u hu => (List.mem_cons.mp hu).elim (· ▸ hwP) (hops u)) h
  | case11 prev operands deferred op _ hunary text afterNumber ih =>
    obtain ⟨x, hx, h⟩ := Eval.ok_of_bind h
    have hxP : P (-x) := hP.neg x (hP.literal text x ((readNumber_yields text).ok hx))
    exact ih x (fun w hw => (List.mem_cons.mp hw).elim (· ▸ hxP) (hops w)) h
  | case12 prev operands deferred op _ hunary rest ih => exact ih hops h
  | case14 prev operands deferred rest op hbang hbinary ih =>
    obtain ⟨⟨deferred', operands'⟩, hreduce, h⟩ := Eval.ok_of_bind h
    exact ih deferred' operands' (reduceFor_keeps hP hops hreduce) h

end Stacks

theorem literal_ensures_wordScale (text : String) : (literal text).Ensures Decimal.WordScale := by
  unfold literal
  split
  · rename_i x hx
    exact Except.ensures_ok (Decimal.ofChars?_wordScale hx)
  · exact Except.ensures_error _

theorem keepsValues_wordScale (p : Precision) : KeepsValues p Decimal.WordScale where
  literal := literal_ensures_wordScale
  pi := pi_wordScale p
  euler := eulerNumber_ensures p
  neg _ hx := hx.neg
  binary op a b ha hb := by
    cases op with
    | plus => exact Decimal.add_ensures ha hb p
    | minus => exact Decimal.sub_ensures ha hb p
    | times => exact Decimal.mul_ensures a b p
    | slash | obelus => exact Decimal.div_ensures a b p
    | caret => exact power_ensures ha b p
    | bang | choose | arrange => exact Except.ensures_error _
  factorial n := factorial_ensures n p
  call f _ hx := Function.apply_ensures f hx p

theorem evaluate_wordScale {tokens : List Token} {p : Precision} {trace : Array Step} {v : Decimal}
    (h : ((evaluate tokens p).run.run trace).1 = .ok v) : v.WordScale := by
  obtain ⟨w, hw, h⟩ := Eval.ok_of_bind h
  have hwScale := run_keeps (keepsValues_wordScale p) (fun _ hv => absurd hv List.not_mem_nil) hw
  rw [Decimal.checked_ok (Eval.ok_lift h)]
  exact hwScale.round p

end Calculator.Evaluation
