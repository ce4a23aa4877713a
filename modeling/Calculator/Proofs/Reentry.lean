import Calculator.Proofs.Readback
import Calculator.Proofs.Rounding
import Calculator.Proofs.ValueInvariant
import Calculator.Gateway.Basic
/-!
A printed result entered again. A request prints the value it computes. Read as a literal, the
printed text gives that value back, and the text in parentheses, evaluated at the same precision,
is answered by the same text, exactly when the value prints plainly or its exponent is at most
`literalExponentLimit` in size. Values with larger exponents pass the bound of `checked` and are
printed, but their printed form is refused as a number.
-/

namespace Calculator

namespace Token

open Decimal

theorem toNat_of_isDigit {c : Char} (hc : c.isDigit = true) : 48 ≤ c.toNat ∧ c.toNat ≤ 57 := by
  simp [Char.isDigit] at hc
  obtain ⟨h1, h2⟩ := hc
  rw [UInt32.le_iff_toNat_le] at h1 h2
  exact ⟨h1, h2⟩

theorem isBlank_of_printable {c : Char} (h1 : 33 ≤ c.toNat) (h2 : c.toNat < 133) :
    Text.isBlank c = false := by
  simp only [Text.isBlank, Text.blankRanges, Text.inRanges]
  rw [if_neg (by omega), if_neg (by omega), if_neg (by omega), if_neg (by omega), if_pos h2]

theorem isBlank_of_mantissa {c : Char} (hc : c.isDigit = true ∨ c = '.') :
    Text.isBlank c = false := by
  rcases hc with hc | rfl
  · have := toNat_of_isDigit hc
    exact isBlank_of_printable (by omega) (by omega)
  · rfl

theorem scanFrom_mantissa {cs : List Char} (hcs : ∀ c ∈ cs, c.isDigit = true ∨ c = '.')
    (rest : List Char) (r : List Char) (done : List Token) :
    scanFrom (cs ++ rest) (.number r) done = scanFrom rest (.number (cs.reverse ++ r)) done := by
  induction cs generalizing r with
  | nil => rfl
  | cons c cs ih =>
    have hc := hcs c List.mem_cons_self
    have hnumber : (c.isDigit || c == '.') = true := by
      rcases hc with hc | rfl
      · simp [hc]
      · rfl
    rw [List.cons_append, scanFrom, if_neg (by simp [isBlank_of_mantissa hc]), if_pos hnumber]
    show scanFrom (cs ++ rest) (.number (c :: r)) done = _
    rw [ih (fun d hd => hcs d (List.mem_cons_of_mem _ hd))]
    simp

theorem scanFrom_mantissa_start {cs : List Char} (hne : cs ≠ [])
    (hcs : ∀ c ∈ cs, c.isDigit = true ∨ c = '.') (rest : List Char) (done : List Token) :
    scanFrom (cs ++ rest) .empty done = scanFrom rest (.number cs.reverse) done := by
  obtain ⟨c, cs, rfl⟩ := List.exists_cons_of_ne_nil hne
  have hc := hcs c List.mem_cons_self
  have hnumber : (c.isDigit || c == '.') = true := by
    rcases hc with hc | rfl
    · simp [hc]
    · rfl
  rw [List.cons_append, scanFrom, if_neg (by simp [isBlank_of_mantissa hc]), if_pos hnumber]
  show scanFrom (cs ++ rest) (.number [c]) done = _
  rw [scanFrom_mantissa (fun d hd => hcs d (List.mem_cons_of_mem _ hd))]
  simp

theorem scanFrom_openParen (rest : List Char) (done : List Token) :
    scanFrom ('(' :: rest) .empty done = scanFrom rest .empty (.openParen :: done) := by
  rw [scanFrom]
  rfl

theorem scanFrom_minus (rest : List Char) (done : List Token) :
    scanFrom ('-' :: rest) .empty done = scanFrom rest .empty (.operator .minus :: done) := by
  rw [scanFrom]
  rfl

theorem scanFrom_closeParen (rest r : List Char) (done : List Token) :
    scanFrom (')' :: rest) (.number r) done =
      scanFrom rest .empty (.closeParen :: .number (String.ofList r.reverse) :: done) := by
  rw [scanFrom]
  rfl

theorem scanFrom_nil (done : List Token) : scanFrom [] .empty done = .ok done.reverse := by
  rw [scanFrom]
  rfl

theorem scanFrom_mark {r : List Char} (hr : r.any Char.isDigit = true) (rest : List Char)
    (done : List Token) :
    scanFrom ('E' :: rest) (.number r) done = scanFrom rest (.number ('E' :: r)) done := by
  rw [scanFrom, if_neg (by decide), if_neg (by decide),
    if_pos (by simp [Pending.hasDigit, hr])]
  rfl

theorem scanFrom_sign {s : Char} (hs : s = '+' ∨ s = '-') (rest r : List Char)
    (done : List Token) :
    scanFrom (s :: rest) (.number ('E' :: r)) done = scanFrom rest (.number (s :: 'E' :: r)) done := by
  rcases hs with rfl | rfl
  · rw [scanFrom]
    rfl
  · rw [scanFrom]
    rfl

theorem scanFrom_scientific {lead ds : List Char} {s : Char} (hne : lead ≠ [])
    (hlead : ∀ c ∈ lead, c.isDigit = true ∨ c = '.') (hdigit : lead.any Char.isDigit = true)
    (hs : s = '+' ∨ s = '-') (hds : ∀ c ∈ ds, c.isDigit = true) (rest : List Char)
    (done : List Token) :
    scanFrom (lead ++ 'E' :: s :: ds ++ rest) .empty done =
      scanFrom rest (.number (lead ++ 'E' :: s :: ds).reverse) done := by
  rw [List.append_assoc, scanFrom_mantissa_start hne hlead, List.cons_append,
    scanFrom_mark (by rwa [List.any_reverse]), List.cons_append, scanFrom_sign hs,
    scanFrom_mantissa (fun c hc => .inl (hds c hc))]
  simp

theorem plainChars_ne_nil {coeff : List Char} (hne : coeff ≠ []) (places : Nat) :
    plainChars coeff places ≠ [] := by
  unfold plainChars
  split_ifs <;> simp [hne]

theorem exponentChars_eq_cons (e : Int) :
    ∃ s n, (s = '+' ∨ s = '-') ∧ exponentChars e = s :: digitChars n := by
  unfold exponentChars
  split_ifs
  · exact ⟨'+', _, .inl rfl, rfl⟩
  · exact ⟨'-', _, .inr rfl, rfl⟩

theorem scanFrom_toChars {x : Decimal} (hx : 0 ≤ x.mantissa) (rest : List Char)
    (done : List Token) :
    scanFrom (x.toChars ++ ')' :: rest) .empty done =
      scanFrom rest .empty (.closeParen :: .number x.toText :: done) := by
  suffices h : scanFrom (x.toChars ++ ')' :: rest) .empty done =
      scanFrom (')' :: rest) (.number x.toChars.reverse) done by
    rw [h, scanFrom_closeParen, List.reverse_reverse]
    rfl
  have hne := digitChars_ne_nil x.mantissa.natAbs
  have hd : ∀ c ∈ digitChars x.mantissa.natAbs, c.isDigit = true :=
    fun c hc => isDigit_of_mem_digitChars hc
  rw [toChars_eq, if_neg (by omega), List.nil_append]
  by_cases hplain : x.PrintsPlain
  · rw [if_pos hplain]
    exact scanFrom_mantissa_start (plainChars_ne_nil hne _)
      (fun c hc => mantissa_of_mem_plainChars hd hc) _ _
  · rw [if_neg hplain, scientificChars_eq]
    obtain ⟨s, n, hs, hexp⟩ := exponentChars_eq_cons x.printedExponent
    obtain ⟨first, more, hcons⟩ := List.exists_cons_of_ne_nil hne
    rw [hexp]
    apply scanFrom_scientific _ _ _ hs (fun c hc => isDigit_of_mem_digitChars hc)
    · rw [hcons]
      simp
    · intro c hc
      rcases List.mem_append.mp hc with hc | hc
      · exact .inl (hd c (List.mem_of_mem_take hc))
      · split_ifs at hc
        · rcases List.mem_cons.mp hc with rfl | hc
          · exact .inr rfl
          · exact .inl (hd c (List.mem_of_mem_drop hc))
        · cases hc
    · rw [hcons]
      simp [hd first (by rw [hcons]; exact List.mem_cons_self)]

theorem scan_parenthesized (x : Decimal) :
    scan ("(" ++ x.toText ++ ")") =
      .ok (.openParen :: (if x.mantissa < 0 then [.operator .minus] else []) ++
        [.number x.abs.toText, .closeParen]) := by
  have hchars : ("(" ++ x.toText ++ ")").toList = '(' :: (x.toChars ++ [')']) := by
    simp [toText, String.toList_append]
  have habs : 0 ≤ x.abs.mantissa := Int.natCast_nonneg _
  rw [scan, hchars, scanFrom_openParen, toChars_eq_sign_append]
  by_cases hneg : x.mantissa < 0
  · rw [if_pos hneg, if_pos hneg, List.append_assoc, List.singleton_append, scanFrom_minus,
      scanFrom_toChars habs, scanFrom_nil]
    rfl
  · rw [if_neg hneg, if_neg hneg, List.nil_append, scanFrom_toChars habs, scanFrom_nil]
    rfl

end Token

namespace Decimal

theorem sign_abs (x : Decimal) : (if x.mantissa < 0 then -x.abs else x.abs) = x := by
  split
  · show (⟨-(x.mantissa.natAbs : Int), x.scale⟩ : Decimal) = x
    congr 1
    omega
  · show (⟨(x.mantissa.natAbs : Int), x.scale⟩ : Decimal) = x
    congr 1
    omega

end Decimal

namespace Evaluation

open Decimal

variable {p : Precision}

theorem run_parenthesized (negative : Prop) [Decidable negative] (text : String) :
    run p ((.openParen :: if negative then [.operator .minus] else []) ++
        [.number text, .closeParen]) none [] [] =
      readNumber text >>= fun y => pure (if negative then -y else y) := by
  by_cases hneg : negative
  · simp only [if_pos hneg, List.cons_append, List.nil_append]
    rw [run_openParen, run_negNumber (show unaryAfter (some Token.openParen) = true from rfl)]
    simp only [run_closeParen, closeGroup_openParen, pure_bind, run_nil, result_singleton]
  · simp only [if_neg hneg, List.cons_append, List.nil_append]
    rw [run_openParen, run_number]
    simp only [run_closeParen, closeGroup_openParen, pure_bind, run_nil, result_singleton]

theorem evaluate_ok_checked {tokens : List Token} {trace : Array Step} {v : Decimal}
    (h : ((evaluate tokens p).run.run trace).1 = .ok v) : v.checked = .ok v := by
  obtain ⟨w, -, hlift⟩ := Eval.ok_of_bind h
  have hchecked := Eval.ok_lift hlift
  have hv := checked_ok hchecked
  subst hv
  exact hchecked

theorem ofString?_abs_toText {v : Decimal} (hw : v.WordScale) :
    ofString? v.abs.toText = if v.Readable then some v.abs else none := by
  rw [ofString?_toText, ofChars?_toChars, abs_scale, wrap64_of_mem hw.1 hw.2]
  by_cases hr : v.Readable
  · rw [if_pos ((readable_abs v).mpr hr), if_pos hr]
    rfl
  · rw [if_neg (mt (readable_abs v).mp hr), if_neg hr]

theorem evaluate_parenthesized {v : Decimal} (hw : v.WordScale) (hround : v.round p = v)
    (hchecked : v.checked = .ok v) (trace : Array Step) :
    ((evaluate (.openParen :: (if v.mantissa < 0 then [.operator .minus] else []) ++
        [.number v.abs.toText, .closeParen]) p).run.run trace).1 =
      if v.Readable then .ok v else .error (.malformedNumber v.abs.toText) := by
  unfold evaluate
  rw [run_parenthesized]
  unfold readNumber
  rw [ofString?_abs_toText hw]
  by_cases hr : v.Readable
  · rw [if_pos hr, if_pos hr]
    simp only [pure_bind, sign_abs, hround, hchecked]
    rfl
  · rw [if_neg hr, if_neg hr]
    rfl

end Evaluation

namespace Gateway

open Evaluation

theorem emit_run (e : Event) (log : Array Event) :
    ((emit e).run.run log) = (.ok (), log.push e) := rfl

theorem Session.run_bind {α β : Type} (x : Session α) (f : α → Session β) (log : Array Event) :
    (x >>= f).run.run log =
      match x.run.run log with
      | (.ok a, log') => (f a).run.run log'
      | (.error e, log') => (.error e, log') := by
  simp only [ExceptT.run_bind, StateT.run_bind]
  rcases x.run.run log with ⟨_ | _, log'⟩ <;> rfl

theorem Session.run_pure {α : Type} (a : α) (log : Array Event) :
    (pure a : Session α).run.run log = (.ok a, log) := rfl

theorem Session.run_throw {α : Type} (e : Failure) (log : Array Event) :
    (throw e : Session α).run.run log = (.error e, log) := rfl

theorem forIn_emit_run (steps : List Step) (log : Array Event) :
    (forIn steps PUnit.unit fun s _ => do
        emit (.step s)
        pure (ForInStep.yield PUnit.unit) : Session PUnit).run.run log =
      (.ok PUnit.unit, log ++ (steps.map Event.step).toArray) := by
  induction steps generalizing log with
  | nil =>
    simp
    rfl
  | cons s rest ih =>
    rw [List.forIn_cons]
    change (forIn rest PUnit.unit _ : Session PUnit).run.run (log.push (.step s)) = _
    rw [ih]
    simp

theorem forIn_emit_run_array (steps : Array Step) (log : Array Event) :
    (forIn steps PUnit.unit fun s _ => do
        emit (.step s)
        pure (ForInStep.yield PUnit.unit) : Session PUnit).run.run log =
      (.ok PUnit.unit, log ++ (steps.toList.map Event.step).toArray) := by
  rw [← Array.forIn_toList, forIn_emit_run]

def requestValue (expression : String) (precision : Nat) : Except Failure Decimal :=
  if isBlank expression then .error .invalidInput
  else
    match validPrecision precision with
    | .error e => .error e
    | .ok p =>
      match Token.scan (dropEquals expression) with
      | .error e => .error (.scan e)
      | .ok tokens =>
        match ((evaluate tokens p).run.run #[]).1 with
        | .ok v => .ok v
        | .error f => .error (.eval f)

theorem evaluateExpression_serve (expression : String) (precision : Nat) :
    (evaluateExpression expression precision).serve.1 =
      (requestValue expression precision).map Decimal.toText := by
  unfold evaluateExpression Session.serve requestValue
  by_cases hblank : isBlank expression
  · rw [if_pos hblank, if_pos hblank]
    rfl
  · rw [if_neg hblank, if_neg hblank]
    cases hvalid : validPrecision precision with
    | error e => rfl
    | ok p =>
      cases hscan : Token.scan (dropEquals expression) with
      | error e => rfl
      | ok tokens =>
        rcases hrun : (evaluate tokens p).run.run #[] with ⟨outcome, steps⟩
        simp only [Session.run_bind, emit_run, Session.run_pure]
        rw [hrun]
        simp only [Session.run_bind, forIn_emit_run_array]
        cases outcome with
        | ok v => rfl
        | error f => rfl

theorem isBlank_eq_all (s : String) : isBlank s = s.toList.all Text.isBlank := by
  rw [isBlank, String.all_bool_eq]

theorem isBlank_parenthesized (t : String) : isBlank ("(" ++ t ++ ")") = false := by
  have hparen : Text.isBlank '(' = false := by decide
  rw [isBlank_eq_all]
  simp [String.toList_append, hparen]

theorem dropEquals_parenthesized (t : String) : dropEquals ("(" ++ t ++ ")") = "(" ++ t ++ ")" := by
  unfold dropEquals
  simp [String.toList_append]

theorem validPrecision_ok_digits {n : Int} {p : Precision} (h : validPrecision n = .ok p) :
    (p.digits : Int) = n := by
  unfold validPrecision at h
  split at h
  · cases h
    simp only [Int.toNat_of_nonneg (by omega : (0 : Int) ≤ n)]
  · cases h

theorem requestValue_ok {s : String} {n : Nat} {v : Decimal} (h : requestValue s n = .ok v) :
    ∃ p, validPrecision n = .ok p ∧ v.WordScale ∧ v.checked = .ok v := by
  unfold requestValue at h
  split_ifs at h
  split at h
  · cases h
  · next p hp =>
    split at h
    · cases h
    · split at h
      · next hrun =>
        cases h
        exact ⟨p, hp, evaluate_wordScale hrun, evaluate_ok_checked hrun⟩
      · cases h

theorem requestValue_parenthesized {n : Nat} {p : Precision} {v : Decimal}
    (hp : validPrecision n = .ok p) (hw : v.WordScale) (hround : v.round p = v)
    (hchecked : v.checked = .ok v) :
    requestValue ("(" ++ v.toText ++ ")") n =
      if v.Readable then .ok v else .error (.eval (.malformedNumber v.abs.toText)) := by
  unfold requestValue
  rw [isBlank_parenthesized, dropEquals_parenthesized, Token.scan_parenthesized]
  simp only [Bool.false_eq_true, if_false, hp, evaluate_parenthesized hw hround hchecked]
  split_ifs <;> rfl

/-- A request's printed result, read as a literal, gives back the value printed, and entered
again in parentheses is answered by itself, exactly when the result prints plainly or its
exponent is within the bound of literals. -/
theorem evaluateExpression_reads_back {s r : String} {n : Nat}
    (h : (evaluateExpression s n).serve.1 = .ok r) :
    ∃ v, requestValue s n = .ok v ∧ v.toText = r ∧
      (Decimal.ofString? r = some v ↔ v.Readable) ∧
      (v.digits ≤ n → ((evaluateExpression ("(" ++ r ++ ")") n).serve.1 = .ok r ↔ v.Readable)) := by
  rw [evaluateExpression_serve] at h
  cases hv : requestValue s n with
  | error e =>
    rw [hv] at h
    cases h
  | ok v =>
    rw [hv] at h
    cases h
    obtain ⟨p, hp, hw, hchecked⟩ := requestValue_ok hv
    refine ⟨v, rfl, rfl, Decimal.ofString?_toText_eq_some_iff hw, fun hdigits => ?_⟩
    have hround : v.round p = v := by
      have := validPrecision_ok_digits hp
      exact Decimal.round_of_digits_le (by omega)
    rw [evaluateExpression_serve, requestValue_parenthesized hp hw hround hchecked]
    by_cases hr : v.Readable
    · rw [if_pos hr]
      exact ⟨fun _ => hr, fun _ => rfl⟩
    · rw [if_neg hr]
      refine ⟨fun h => ?_, fun h => absurd h hr⟩
      cases h

theorem requestValue_large_product :
    requestValue "1E999999999*10" 5 = .ok ⟨10, -999999999⟩ := by
  have hvalue : (requestValue "1E999999999*10" 5).toOption = some ⟨10, -999999999⟩ := by
    rw [requestValue, isBlank_eq_all]
    decide +kernel
  generalize requestValue "1E999999999*10" 5 = outcome at hvalue ⊢
  cases outcome with
  | error => cases hvalue
  | ok x => cases hvalue; rfl

theorem evaluateExpression_large_product_not_reentered :
    (evaluateExpression "1E999999999*10" 5).serve.1 = .ok "1.0E+1000000000" ∧
      (evaluateExpression ("(" ++ "1.0E+1000000000" ++ ")") 5).serve.1 ≠ .ok "1.0E+1000000000" := by
  have htext : Decimal.toText ⟨10, -999999999⟩ = "1.0E+1000000000" := by with_unfolding_all decide
  have h : (evaluateExpression "1E999999999*10" 5).serve.1 = .ok "1.0E+1000000000" := by
    rw [evaluateExpression_serve, requestValue_large_product, ← htext]
    rfl
  obtain ⟨v, hv, -, -, hback⟩ := evaluateExpression_reads_back h
  rw [requestValue_large_product] at hv
  cases hv
  refine ⟨h, fun hre => ?_⟩
  have hunreadable : ¬ (⟨10, -999999999⟩ : Decimal).Readable := by with_unfolding_all decide
  have hdigits : (⟨10, -999999999⟩ : Decimal).digits ≤ 5 := by decide
  exact hunreadable ((hback hdigits).mp hre)

end Gateway

end Calculator
