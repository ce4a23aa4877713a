import Calculator.Evaluation.Machine

namespace Calculator.Evaluation

open Elementary

/-! What an evaluation returns, apart from the steps it records. An evaluation *yields* `v`
when it returns `v` whatever steps were recorded before it; every evaluation here does, since
recording only appends. -/

theorem Eval.run_bind {α β : Type} (x : Eval α) (f : α → Eval β) (trace : Array Step) :
    (x >>= f).run.run trace =
      match x.run.run trace with
      | (.ok a, trace') => (f a).run.run trace'
      | (.error e, trace') => (.error e, trace') := by
  simp only [ExceptT.run_bind, StateT.run_bind]
  rcases x.run.run trace with ⟨_ | _, trace'⟩ <;> rfl

def Eval.Yields {α : Type} (x : Eval α) (v : Except Fault α) : Prop :=
  ∀ trace, (x.run.run trace).1 = v

theorem Eval.Yields.bind {α β : Type} {x : Eval α} {f : α → Eval β} {vx : Except Fault α}
    {g : α → Except Fault β} (hx : x.Yields vx) (hf : ∀ a, (f a).Yields (g a)) :
    (x >>= f).Yields (vx >>= g) := by
  intro trace
  rw [Eval.run_bind]
  have houtcome := hx trace
  rcases hrun : x.run.run trace with ⟨_ | a, trace'⟩ <;> rw [hrun] at houtcome <;>
    subst houtcome
  · rfl
  · exact hf a trace'

theorem Eval.yields_pure {α : Type} (a : α) : (pure a : Eval α).Yields (.ok a) :=
  fun _ => rfl

theorem Eval.yields_throw {α : Type} (f : Fault) : (throw f : Eval α).Yields (.error f) :=
  fun _ => rfl

theorem Eval.yields_lift {α : Type} (v : Except Fault α) : (lift v).Yields v := by
  intro trace
  cases v <;> rfl

theorem Eval.yields_record (step : Step) : (record step).Yields (.ok ()) :=
  fun _ => rfl

theorem Eval.ok_of_bind {α β : Type} {x : Eval α} {f : α → Eval β} {trace : Array Step} {v : β}
    (h : ((x >>= f).run.run trace).1 = .ok v) :
    ∃ a, (x.run.run trace).1 = .ok a ∧ ((f a).run.run (x.run.run trace).2).1 = .ok v := by
  rw [Eval.run_bind] at h
  rcases hrun : x.run.run trace with ⟨_ | a, trace'⟩ <;> rw [hrun] at h
  · cases h
  · exact ⟨a, rfl, h⟩

theorem Eval.ok_pure {α : Type} {a b : α} {trace : Array Step}
    (h : ((pure a : Eval α).run.run trace).1 = .ok b) : a = b :=
  Except.ok.inj h

theorem Eval.ok_lift {α : Type} {e : Except Fault α} {trace : Array Step} {a : α}
    (h : ((lift e).run.run trace).1 = .ok a) : e = .ok a := by
  cases e with
  | ok x => exact h
  | error f => cases h

theorem Eval.ok_throw {α : Type} {f : Fault} {trace : Array Step} {a : α}
    (h : ((throw f : Eval α).run.run trace).1 = .ok a) : False := by
  cases h

/-! One equation for each kind of token the evaluator meets, so that later proofs follow the
evaluator token by token and never unfold it. -/

variable {p : Precision} {prev : Option Token} {operands : List Decimal}
  {deferred : List Deferred}

theorem run_nil : run p [] prev operands deferred = result p deferred operands := by
  rw [run.eq_def]

theorem run_number (text : String) (rest : List Token) :
    run p (.number text :: rest) prev operands deferred =
      readNumber text >>= fun x => run p rest (some (.number text)) (x :: operands) deferred := by
  rw [run.eq_def]

theorem run_constant (c : Constant) (rest : List Token) :
    run p (.constant c :: rest) prev operands deferred =
      constantValue c p >>= fun x => run p rest (some (.constant c)) (x :: operands) deferred := by
  rw [run.eq_def]

theorem run_bang (rest : List Token) :
    run p (.operator .bang :: rest) prev operands deferred =
      factorialOf p operands >>= fun operands =>
        run p rest (some (.operator .bang)) operands deferred := by
  rw [run.eq_def]

theorem run_openParen (rest : List Token) :
    run p (.openParen :: rest) prev operands deferred =
      run p rest (some .openParen) operands (.openParen :: deferred) := by
  rw [run.eq_def]

theorem run_closeParen (rest : List Token) :
    run p (.closeParen :: rest) prev operands deferred =
      closeGroup p deferred operands >>= fun (deferred, operands) =>
        run p rest (some .closeParen) operands deferred := by
  rw [run.eq_def]

theorem run_call {name : String} {f : Function} {afterOpen inside after : List Token}
    (hf : Function.ofName? name = some f)
    (hsplit : splitGroup 0 afterOpen = some (inside, after)) :
    run p (.name name :: .openParen :: afterOpen) prev operands deferred =
      (do
        let argument ← run p inside none [] []
        record (.call f argument)
        let v ← lift (f.apply argument p)
        run p after (some .closeParen) (v :: operands) deferred) := by
  rw [run.eq_def]
  simp only [hf]
  split
  · simp_all
  · rename_i hsplit'
    rw [hsplit] at hsplit'
    cases hsplit'
    rfl

theorem run_negNumber (hprev : unaryAfter prev = true) (text : String) (rest : List Token) :
    run p (.operator .minus :: .number text :: rest) prev operands deferred =
      readNumber text >>= fun x =>
        run p rest (some (.number text)) (-x :: operands) deferred := by
  rw [run.eq_def]
  simp [hprev]

theorem run_negParen (hprev : unaryAfter prev = true) (rest : List Token) :
    run p (.operator .minus :: .openParen :: rest) prev operands deferred =
      run p (.openParen :: rest) (some (.operator .minus)) operands (.negation :: deferred) := by
  rw [run.eq_def]
  simp [hprev]

theorem run_binary {op : Operator} (hbang : op ≠ .bang)
    (hunary : ¬(op = .minus ∧ unaryAfter prev = true)) (rest : List Token) :
    run p (.operator op :: rest) prev operands deferred =
      reduceFor p op deferred operands >>= fun (deferred, operands) =>
        run p rest (some (.operator op)) operands (.binary op :: deferred) := by
  rw [run.eq_def]
  cases op <;> simp_all

theorem closeGroup_openParen (operands : List Decimal) (deferred : List Deferred) :
    closeGroup p (.openParen :: deferred) operands = pure (deferred, operands) := by
  rw [closeGroup]

theorem closeGroup_cons {d : Deferred} (hd : d ≠ .openParen) (operands : List Decimal)
    (deferred : List Deferred) :
    closeGroup p (d :: deferred) operands =
      applyDeferred p d operands >>= closeGroup p deferred := by
  cases d <;> first | exact absurd rfl hd | rfl

theorem applyAll_cons (d : Deferred) (operands : List Decimal) (deferred : List Deferred) :
    applyAll p (d :: deferred) operands = applyDeferred p d operands >>= applyAll p deferred := by
  rw [applyAll]

theorem result_cons (d : Deferred) (operands : List Decimal) (deferred : List Deferred) :
    result p (d :: deferred) operands =
      applyDeferred p d operands >>= fun operands => result p deferred operands := by
  simp only [result, applyAll_cons, bind_assoc]

theorem result_singleton (v : Decimal) : result p [] [v] = pure v := by
  simp only [result, applyAll, pure_bind]

theorem reduceFor_stop {op : Operator} {d : Deferred}
    (hstop : d = .openParen ∨ d.precedence < (Deferred.binary op).precedence)
    (operands : List Decimal) (deferred : List Deferred) :
    reduceFor p op (d :: deferred) operands = pure (d :: deferred, operands) := by
  rw [reduceFor, if_pos hstop]

theorem reduceFor_cons {op : Operator} {d : Deferred}
    (happly : ¬(d = .openParen ∨ d.precedence < (Deferred.binary op).precedence))
    (operands : List Decimal) (deferred : List Deferred) :
    reduceFor p op (d :: deferred) operands =
      applyDeferred p d operands >>= reduceFor p op deferred := by
  rw [reduceFor, if_neg happly]

theorem run_congr_prev (prev' : Option Token) (h : unaryAfter prev = unaryAfter prev')
    (tokens : List Token) :
    run p tokens prev operands deferred = run p tokens prev' operands deferred := by
  rw [run.eq_def, run.eq_def, h]

end Calculator.Evaluation
