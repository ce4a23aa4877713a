import Calculator.Proofs.Reentry
import Calculator.Proofs.PostOrderSteps
/-!
What a request answers and what it logs. A request to evaluate an expression logs that it was
asked for, then the evaluator's steps when the expression passes the gateway's checks, then a
warning with the cause when the scanner or the evaluator failed; from any log it starts with, it
appends exactly that (`evaluateExpression_run`). On the tokens of a tree of the grammar the
steps are the tree's nodes in post-order (`evaluateExpression_log`).
-/

namespace Calculator.Gateway

open Evaluation

namespace Failure

def warning? : Failure → Option String
  | scan e => some e.message
  | eval f => some f.message
  | _ => none

theorem warning?_isSome_iff (f : Failure) :
    f.warning?.isSome = true ↔ f.code = "EVALUATION_ERROR" := by
  cases f <;> simp [warning?, code]

end Failure

def requestSteps (expression : String) (precision : Nat) : List Step :=
  if isBlank expression then []
  else
    match validPrecision precision with
    | .error _ => []
    | .ok p =>
      match Token.scan (dropEquals expression) with
      | .error _ => []
      | .ok tokens => ((evaluate tokens p).run.run #[]).2.toList

def warnings {α : Type} (expression : String) : Except Failure α → List Event
  | .ok _ => []
  | .error f => (f.warning?.map (Event.failed expression)).toList

def requestLog (expression : String) (precision : Nat) : List Event :=
  Event.requested expression precision ::
    ((requestSteps expression precision).map Event.step ++
      warnings expression (requestValue expression precision))

theorem validPrecision_error_warning? {n : Int} {e : Failure} (h : validPrecision n = .error e) :
    e.warning? = none := by
  unfold validPrecision at h
  split at h
  · cases h
  · cases h
    rfl

theorem warnings_map {α β : Type} (expression : String) (g : α → β) (r : Except Failure α) :
    warnings expression (r.map g) = warnings expression r := by
  cases r <;> rfl

theorem push_push_eq_append (log : Array Event) (a b : Event) :
    (log.push a).push b = log ++ #[a, b] := by
  rw [Array.push_eq_append, Array.push_eq_append, Array.append_assoc]
  rfl

theorem evaluateExpression_run (expression : String) (precision : Nat) (log : Array Event) :
    (evaluateExpression expression precision).run.run log =
      ((requestValue expression precision).map Decimal.toText,
        log ++ (requestLog expression precision).toArray) := by
  unfold evaluateExpression requestLog requestValue requestSteps
  rw [Session.run_bind, emit_run]
  by_cases hblank : isBlank expression
  · simp only [hblank, if_true, Session.run_bind, Session.run_throw]
    simp [warnings, Failure.warning?, Except.map]
  simp only [hblank, Bool.false_eq_true, if_false]
  cases hvalid : validPrecision precision with
  | error e =>
    simp only [Session.run_bind, Session.run_throw]
    simp [warnings, validPrecision_error_warning? hvalid, Except.map]
  | ok p =>
    cases hscan : Token.scan (dropEquals expression) with
    | error e =>
      simp only [Session.run_bind, Session.run_throw, Session.run_pure, emit_run]
      simp [warnings, Failure.warning?, Except.map, push_push_eq_append]
    | ok tokens =>
      rcases hrun : (evaluate tokens p).run.run #[] with ⟨outcome, steps⟩
      simp only [Session.run_bind, Session.run_pure]
      rw [hrun]
      simp only [Session.run_bind, forIn_emit_run_array]
      cases outcome with
      | ok v =>
        simp [warnings, Except.map]
        rfl
      | error f =>
        simp only [Session.run_bind, emit_run, Session.run_throw]
        simp [warnings, Failure.warning?, Except.map]

theorem evaluateExpression_serve_log (expression : String) (precision : Nat) :
    (evaluateExpression expression precision).serve.2.toList = requestLog expression precision := by
  rw [Session.serve, evaluateExpression_run]
  simp

theorem requestSteps_of_refused {s : String} {n : Nat}
    (h : isBlank s = true ∨ ∃ f, validPrecision n = .error f) : requestSteps s n = [] := by
  rcases h with hblank | ⟨f, hvalid⟩
  · simp [requestSteps, hblank]
  · unfold requestSteps
    split_ifs
    · rfl
    · rw [hvalid]

theorem requestSteps_of_derives {s : String} {n : Nat} {p : Precision} {e : Expr}
    (hblank : isBlank s = false) (hvalid : validPrecision n = .ok p)
    (hscan : Token.scan (dropEquals s) = .ok e.tokens) (he : Derives .sum e) :
    requestSteps s n = e.steps p := by
  unfold requestSteps
  rw [hblank, if_neg Bool.false_ne_true, hvalid]
  dsimp only
  rw [hscan]
  dsimp only
  rw [evaluate_tokens_performs he p #[]]
  simp

/-- The log of a request comes in three parts: the request, with the expression as given and the
precision; the evaluator's steps, only when the expression passes the blank and precision checks;
and a warning carrying the scanner's or the evaluator's message, exactly when the request fails
with code `EVALUATION_ERROR`. On the tokens of a tree of the grammar the steps are the tree's
operator, negation, factorial and call nodes in post-order, each with the values it is applied
to, up to the first node that fails. -/
theorem evaluateExpression_log :
    (∀ (s : String) (n : Nat),
      (evaluateExpression s n).serve.2.toList =
        Event.requested s n ::
          ((requestSteps s n).map Event.step ++ warnings s (evaluateExpression s n).serve.1) ∧
      (isBlank s = true ∨ (∃ f, validPrecision n = .error f) → requestSteps s n = [])) ∧
    (∀ f : Failure, f.warning?.isSome = true ↔ f.code = "EVALUATION_ERROR") ∧
    (∀ (s : String) (n : Nat) (p : Precision) (e : Expr), isBlank s = false →
      validPrecision n = .ok p → Token.scan (dropEquals s) = .ok e.tokens → Derives .sum e →
        requestSteps s n = e.steps p) := by
  refine ⟨fun s n => ⟨?_, requestSteps_of_refused⟩, Failure.warning?_isSome_iff,
    fun s n p e => requestSteps_of_derives⟩
  rw [evaluateExpression_serve_log, evaluateExpression_serve, warnings_map]
  rfl

/-- The request `2*3` at precision ten is a product of the grammar: its log holds the product's
step; a blank request's log holds no step. -/
theorem evaluateExpression_log_product :
    isBlank "   " = true ∧ requestSteps "   " 10 = [] ∧
      isBlank "2*3" = false ∧ validPrecision 10 = .ok ⟨10, by decide, by decide⟩ ∧
      Token.scan (dropEquals "2*3") = .ok (Expr.binary .times (.number "2") (.number "3")).tokens ∧
      Derives .sum (.binary .times (.number "2") (.number "3")) ∧
      requestSteps "2*3" 10 =
        (Expr.binary .times (.number "2") (.number "3")).steps ⟨10, by decide, by decide⟩ := by
  have hblank : isBlank "   " = true := by rw [isBlank_eq_all]; decide
  have hproduct : isBlank "2*3" = false := by rw [isBlank_eq_all]; decide
  have hvalid : validPrecision 10 = .ok ⟨10, by decide, by decide⟩ := by with_unfolding_all decide
  have hscan : Token.scan (dropEquals "2*3") =
      .ok (Expr.binary .times (.number "2") (.number "3")).tokens := by with_unfolding_all decide
  have hderives : Derives .sum (.binary .times (.number "2") (.number "3")) :=
    .sumOfProduct (.multiply (.inl rfl) (.productOfPower (.powerOfUnit (.unitOfAtom (.number "2"))))
      (.powerOfUnit (.unitOfAtom (.number "3"))))
  obtain ⟨hlog, -, htree⟩ := evaluateExpression_log
  exact ⟨hblank, ((hlog "   " 10).2 (.inl hblank)), hproduct, hvalid, hscan, hderives,
    htree "2*3" 10 _ _ hproduct hvalid hscan hderives⟩

example : (Expr.binary .times (.number "2") (.number "3")).steps ⟨10, by decide, by decide⟩ =
    [.operator .times 2 3] := by with_unfolding_all decide

/-! ### The channel -/

theorem channel_table_serve (s : String) (n : Int) :
    (channel evaluateMethod (.table (some s) (some n))).serve.1 =
      if isBlank s then .error .invalidInput
      else
        match validPrecision n with
        | .error e => .error e
        | .ok p => (evaluateExpression s p.digits).serve.1 := by
  unfold channel Session.serve
  rw [Session.run_bind, emit_run]
  simp only [ne_eq, not_true_eq_false, if_false]
  by_cases hblank : isBlank s
  · rw [if_pos hblank, if_pos hblank]
    rfl
  · rw [if_neg hblank, if_neg hblank]
    cases validPrecision n with
    | error e => rfl
    | ok p =>
      show ((evaluateExpression s p.digits).run.run _).1 =
        ((evaluateExpression s p.digits).run.run #[]).1
      rw [evaluateExpression_run, evaluateExpression_run]

theorem channel_other_method {method : String} (h : method ≠ evaluateMethod) (args : ChannelArgs) :
    (channel method args).serve.1 = .error (.notImplemented method) := by
  unfold channel Session.serve
  rw [Session.run_bind, emit_run, if_pos h]
  rfl

theorem channel_table_incomplete {expression : Option String} {precision : Option Int}
    (h : expression = none ∨ precision = none) :
    (channel evaluateMethod (.table expression precision)).serve.1 = .error .invalidInput := by
  unfold channel Session.serve
  rw [Session.run_bind, emit_run, if_neg (not_not.mpr rfl)]
  rcases h with rfl | rfl
  · rfl
  · cases expression <;> rfl

theorem validPrecision_of_not_mem {n : Int} (h : ¬(1 ≤ n ∧ n ≤ maxPrecision)) :
    validPrecision n = .error (.invalidArguments ("précision " ++ toString n ++ " hors de [1, 10000]")) := by
  unfold validPrecision
  rw [dif_neg h]

theorem channel_table_nat (s : String) (n : Nat) :
    (channel evaluateMethod (.table (some s) (some n))).serve.1 =
      (evaluateExpression s n).serve.1 := by
  rw [channel_table_serve, evaluateExpression_serve]
  unfold requestValue
  by_cases hblank : isBlank s
  · rw [if_pos hblank, if_pos hblank]
    rfl
  rw [if_neg hblank, if_neg hblank]
  cases hvalid : validPrecision n with
  | error e => rfl
  | ok p =>
    have hdigits : p.digits = n := by exact_mod_cast validPrecision_ok_digits hvalid
    dsimp only
    rw [hdigits, evaluateExpression_serve]
    unfold requestValue
    rw [if_neg hblank, hvalid]

theorem channel_missing :
    (channel evaluateMethod .missing).serve.1 =
      .error (.invalidArguments "arguments absents ou mal formés") := by
  unfold channel Session.serve
  rw [Session.run_bind, emit_run, if_neg (not_not.mpr rfl)]
  rfl

/-- The channel answers a call to `evaluateExpression` with an expression and a natural precision
exactly as the direct entry point does: the same value, or the same failure. Every other call
fails: with `notImplemented` for another method; then with `invalidArguments` when the arguments
are no table; then with `invalidInput` when the expression is missing, no text or blank, or the
precision is missing or no integer; then with `invalidArguments`, printing the precision, when an
integer precision lies outside `[1, 10000]`. -/
theorem channel_agrees_with_direct :
    (∀ (s : String) (n : Nat),
      (channel evaluateMethod (.table (some s) (some n))).serve.1 =
        (evaluateExpression s n).serve.1) ∧
    (∀ (method : String) (args : ChannelArgs), method ≠ evaluateMethod →
      (channel method args).serve.1 = .error (.notImplemented method)) ∧
    (channel evaluateMethod .missing).serve.1 =
      .error (.invalidArguments "arguments absents ou mal formés") ∧
    (∀ (expression : Option String) (precision : Option Int),
      expression = none ∨ precision = none ∨ (∃ s, expression = some s ∧ isBlank s = true) →
        (channel evaluateMethod (.table expression precision)).serve.1 = .error .invalidInput) ∧
    (∀ (s : String) (n : Int), isBlank s = false → ¬(1 ≤ n ∧ n ≤ maxPrecision) →
      (channel evaluateMethod (.table (some s) (some n))).serve.1 =
        .error (.invalidArguments ("précision " ++ toString n ++ " hors de [1, 10000]"))) := by
  refine ⟨channel_table_nat, fun method args h => channel_other_method h args, channel_missing,
    ?_, ?_⟩
  · rintro expression precision (h | h | ⟨s, rfl, hblank⟩)
    · exact channel_table_incomplete (.inl h)
    · exact channel_table_incomplete (.inr h)
    · cases precision with
      | none => exact channel_table_incomplete (.inr rfl)
      | some n => rw [channel_table_serve, if_pos hblank]
  · intro s n hblank hrange
    rw [channel_table_serve, hblank, validPrecision_of_not_mem hrange]
    rfl

/-- The calls of the channel's error-code test: another method, a missing precision, a blank
expression, and a negative precision, whose message prints it. -/
theorem channel_agrees_with_direct_codes :
    "autre" ≠ evaluateMethod ∧
      (channel "autre" .missing).serve.1 = .error (.notImplemented "autre") ∧
      (channel evaluateMethod (.table (some "1+1") none)).serve.1 = .error .invalidInput ∧
      isBlank " " = true ∧
      (channel evaluateMethod (.table (some " ") (some 10))).serve.1 = .error .invalidInput ∧
      isBlank "1" = false ∧ ¬(1 ≤ (-3 : Int) ∧ (-3 : Int) ≤ maxPrecision) ∧
      ∃ f, (channel evaluateMethod (.table (some "1") (some (-3)))).serve.1 = .error f ∧
        f.message = "arguments invalides : précision -3 hors de [1, 10000]" := by
  have hother : "autre" ≠ evaluateMethod := by decide
  have hblank : isBlank " " = true := by rw [isBlank_eq_all]; decide
  have hone : isBlank "1" = false := by rw [isBlank_eq_all]; decide
  have hrange : ¬(1 ≤ (-3 : Int) ∧ (-3 : Int) ≤ maxPrecision) := by decide
  obtain ⟨-, hmethod, -, hinput, hprecision⟩ := channel_agrees_with_direct
  exact ⟨hother, hmethod "autre" .missing hother, hinput _ _ (.inr (.inl rfl)), hblank,
    hinput _ _ (.inr (.inr ⟨" ", rfl, hblank⟩)), hone, hrange, _,
    hprecision "1" (-3) hone hrange, by decide⟩

end Calculator.Gateway
