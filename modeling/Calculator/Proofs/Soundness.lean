import Calculator.Proofs.Grammar
import Calculator.Proofs.MachineSteps

namespace Calculator.Elementary.Function

theorem ofName?_name (f : Function) : ofName? f.name = some f := by
  cases f <;> rfl

end Calculator.Elementary.Function

namespace Calculator.Evaluation

open Elementary

/-! The evaluator has no tree: it keeps operands and pending operators on two stacks. On the
tokens of a tree of the grammar it nevertheless computes the tree's value. A tree of a given
level, followed by anything that ends it, leaves its value on the operand stack and the
operator stack as it found it; the steps it records are those of a walk of the tree, the
operands of each node before the node. -/

def factorialStep (p : Precision) (x : Decimal) : Eval Decimal :=
  match x.toInt64? with
  | some n =>
    if 0 ≤ n ∧ n ≤ factorialLimit then do
      record (.factorial n.toNat)
      lift (factorial n.toNat p)
    else throw (.invalidFactorial (some x))
  | none => throw (.invalidFactorial (some x))

theorem factorialOf_cons (p : Precision) (x : Decimal) (rest : List Decimal) :
    factorialOf p (x :: rest) = factorialStep p x >>= fun v => pure (v :: rest) := by
  simp only [factorialOf, factorialStep]
  cases x.toInt64? with
  | some n =>
      dsimp only
      by_cases hrange : 0 ≤ n ∧ n ≤ factorialLimit
      · rw [if_pos hrange, if_pos hrange]
        simp only [bind_assoc]
      · rw [if_neg hrange, if_neg hrange]
        rfl
  | none => rfl

namespace Expr

def walk (p : Precision) : Expr → Eval Decimal
  | number text => readNumber text
  | negNumber text => do return -(← readNumber text)
  | constant c => constantValue c p
  | paren e => e.walk p
  | call f e => do
    let argument ← e.walk p
    record (.call f argument)
    lift (f.apply argument p)
  | factorial e => do factorialStep p (← e.walk p)
  | negation e => do
    let v ← e.walk p
    record (.negation v)
    return -v
  | binary op left right => do
    let a ← left.walk p
    let b ← right.walk p
    record (.operator op a b)
    lift (binaryValue op a b p)

end Expr

theorem readNumber_yields (text : String) : (readNumber text).Yields (literal text) := by
  unfold readNumber literal
  cases Decimal.ofString? text with
  | some x => exact Eval.yields_pure x
  | none => exact Eval.yields_throw _

theorem factorialStep_yields (p : Precision) (x : Decimal) :
    (factorialStep p x).Yields (factorialRule x p) := by
  unfold factorialStep factorialRule
  cases x.toInt64? with
  | some n =>
      dsimp only
      by_cases hrange : 0 ≤ n ∧ n ≤ factorialLimit
      · rw [if_pos hrange, if_pos hrange]
        exact (Eval.yields_record _).bind fun _ => Eval.yields_lift _
      · rw [if_neg hrange, if_neg hrange]
        exact Eval.yields_throw _
  | none => exact Eval.yields_throw _

theorem Expr.walk_yields (p : Precision) (e : Expr) : (e.walk p).Yields (e.value p) := by
  induction e with
  | number text => exact readNumber_yields text
  | negNumber text => exact (readNumber_yields text).bind fun x => Eval.yields_pure _
  | constant c =>
      cases c with
      | pi => exact Eval.yields_pure _
      | e => exact Eval.yields_lift _
  | paren e ih => exact ih
  | call f e ih =>
      exact ih.bind fun a => (Eval.yields_record _).bind fun _ => Eval.yields_lift _
  | factorial e ih => exact ih.bind fun v => factorialStep_yields p v
  | negation e ih =>
      exact ih.bind fun v => (Eval.yields_record _).bind fun _ => Eval.yields_pure _
  | binary op left right ihLeft ihRight =>
      exact ihLeft.bind fun a => ihRight.bind fun b =>
        (Eval.yields_record _).bind fun _ => Eval.yields_lift _

/-! A pending entry is applied as soon as what comes next cannot bind tighter: at the end, at
a closing parenthesis, or at a binary operator of no higher precedence. -/

def Flushes (d : Deferred) : List Token → Prop
  | [] | .closeParen :: _ => True
  | .operator o :: _ => o ≠ .bang ∧ (Deferred.binary o).precedence ≤ d.precedence
  | _ => False

theorem Flushes.mono {d d' : Deferred} (hle : d.precedence ≤ d'.precedence) :
    ∀ {rest : List Token}, Flushes d rest → Flushes d' rest
  | [], _ | .closeParen :: _, _ => trivial
  | .operator _ :: _, ⟨hbang, hprec⟩ => ⟨hbang, Nat.le_trans hprec hle⟩

theorem run_applyPending {p : Precision} {prev : Option Token} {operands : List Decimal}
    {deferred : List Deferred} {d : Deferred} (hd : d ≠ .openParen) {rest : List Token}
    (hrest : Flushes d rest) (hprev : unaryAfter prev = false) :
    run p rest prev operands (d :: deferred) =
      applyDeferred p d operands >>= fun operands => run p rest prev operands deferred := by
  match rest, hrest with
  | [], _ => simp only [run_nil, result_cons]
  | .closeParen :: rest, _ => simp only [run_closeParen, closeGroup_cons hd, bind_assoc]
  | .operator o :: rest, ⟨hbang, hprec⟩ =>
      have hunary : ¬(o = .minus ∧ unaryAfter prev = true) := by simp [hprev]
      have happly : ¬(d = .openParen ∨ d.precedence < (Deferred.binary o).precedence) :=
        fun h => h.elim hd (Nat.not_lt.mpr hprec)
      simp only [run_binary hbang hunary, reduceFor_cons happly, bind_assoc]

namespace Level

def binds : Level → Nat
  | sum => 1
  | product => 2
  | power => 3
  | unit | atom | group => 4

def next : Level → Level
  | sum => product
  | product => power
  | power => unit
  | unit => atom
  | atom | group => group

def Ends : Level → List Token → Prop
  | sum, rest => Flushes (.binary .plus) rest
  | product, rest => Flushes (.binary .times) rest
  | power, rest => Flushes (.binary .caret) rest
  | unit, rest => Flushes .negation rest
  | atom, _ | group, _ => True

def Admits (ℓ : Level) : List Deferred → Prop
  | [] => True
  | d :: _ => d = .openParen ∨ d.precedence < ℓ.binds

theorem ends_next {ℓ : Level} {rest : List Token} (h : ℓ.Ends rest) : ℓ.next.Ends rest := by
  cases ℓ with
  | sum => exact Flushes.mono (by decide) h
  | product => exact Flushes.mono (by decide) h
  | power => exact Flushes.mono (by decide) h
  | unit | atom | group => trivial

theorem admits_next {ℓ : Level} {deferred : List Deferred} (h : ℓ.Admits deferred) :
    ℓ.next.Admits deferred := by
  cases deferred with
  | nil => trivial
  | cons d _ =>
      rcases h with h | h
      · exact Or.inl h
      · right
        cases ℓ <;> simp only [binds, next] at h ⊢ <;> omega

theorem admits_of_binds {ℓ : Level} (hℓ : ℓ.binds = 4) (deferred : List Deferred) :
    ℓ.Admits deferred := by
  cases deferred with
  | nil => trivial
  | cons d _ =>
      right
      rw [hℓ]
      cases d with
      | binary op => cases op <;> decide
      | negation | openParen => decide

end Level

/-! Every tree's tokens balance their parentheses, so the evaluator finds a function's argument
where the tree ends. -/

theorem splitGroup_tokens_append (e : Expr) (depth : Nat) (rest : List Token) :
    splitGroup depth (e.tokens ++ rest) =
      (splitGroup depth rest).map fun (inside, after) => (e.tokens ++ inside, after) := by
  induction e generalizing depth rest with
  | number | constant => simp only [Expr.tokens, List.singleton_append, splitGroup]
  | negNumber =>
      simp only [Expr.tokens, List.cons_append, List.nil_append, splitGroup, Option.map_map]
      rfl
  | paren e ih =>
      simp only [Expr.tokens, List.cons_append, List.append_assoc, splitGroup, ih,
        Nat.add_one_ne_zero, if_false, Nat.add_sub_cancel, Option.map_map]
      rfl
  | call f e ih =>
      simp only [Expr.tokens, List.cons_append, List.append_assoc, splitGroup, ih,
        Nat.add_one_ne_zero, if_false, Nat.add_sub_cancel, Option.map_map]
      rfl
  | factorial e ih =>
      simp only [Expr.tokens, List.append_assoc, List.singleton_append, ih, splitGroup,
        Option.map_map]
      rfl
  | negation e ih =>
      simp only [Expr.tokens, List.cons_append, splitGroup, ih, Option.map_map]
      rfl
  | binary op left right ihLeft ihRight =>
      simp only [Expr.tokens, List.append_assoc, List.cons_append, ihLeft, splitGroup, ihRight,
        Option.map_map]
      rfl

theorem Derives.tokens_of_group {ℓ : Level} {e : Expr} (h : Derives ℓ e) (hℓ : ℓ = .group) :
    ∃ inner, e.tokens = .openParen :: inner := by
  induction h with
  | paren => exact ⟨_, rfl⟩
  | groupFactorial _ ih =>
      obtain ⟨inner, hinner⟩ := ih rfl
      exact ⟨inner ++ [.operator .bang], by simp [Expr.tokens, hinner]⟩
  | _ => cases hℓ

/-! The induction over the grammar. A tree of level `ℓ` is simulated when, from any place where a
tree may start, followed by anything that ends it and sitting on any operator stack that lets it
apply its own operators, the evaluator walks it and goes on with its value on top. -/

def Simulates (p : Precision) (ℓ : Level) (e : Expr) : Prop :=
  ∀ rest, ℓ.Ends rest → ∀ prev, unaryAfter prev = true →
    ∀ operands deferred, ℓ.Admits deferred →
      run p (e.tokens ++ rest) prev operands deferred =
        e.walk p >>= fun v => run p rest (some .closeParen) (v :: operands) deferred

theorem reduceFor_admitted {p : Precision} {ℓ : Level} {op : Operator}
    {deferred : List Deferred} (hadmits : ℓ.Admits deferred)
    (hprec : (Deferred.binary op).precedence = ℓ.binds) (operands : List Decimal) :
    reduceFor p op deferred operands = pure (deferred, operands) := by
  cases deferred with
  | nil => rw [reduceFor]
  | cons d _ => exact reduceFor_stop (hprec ▸ hadmits) operands _

theorem Simulates.binary {p : Precision} {ℓ : Level} {op : Operator} {left right : Expr}
    (hprec : (Deferred.binary op).precedence = ℓ.binds) (hnext : ℓ.binds < ℓ.next.binds)
    (hop : op ≠ .bang) (hunary : unaryAfter (some (.operator op)) = true)
    (hends : ∀ rest, ℓ.Ends (.operator op :: rest))
    (hflush : ∀ {rest}, ℓ.Ends rest → Flushes (.binary op) rest)
    (hleft : Simulates p ℓ left) (hright : Simulates p ℓ.next right) :
    Simulates p ℓ (.binary op left right) := by
  intro rest hrest prev hprev operands deferred hadmits
  have hbinary : ¬(op = .minus ∧ unaryAfter (some .closeParen) = true) := by simp [unaryAfter]
  have hrightAdmits : ℓ.next.Admits (.binary op :: deferred) := Or.inr (hprec ▸ hnext)
  calc run p ((left.tokens ++ .operator op :: right.tokens) ++ rest) prev operands deferred
      = left.walk p >>= fun a => run p (.operator op :: (right.tokens ++ rest))
          (some .closeParen) (a :: operands) deferred := by
        rw [List.append_assoc, List.cons_append]
        exact hleft _ (hends _) prev hprev operands deferred hadmits
    _ = left.walk p >>= fun a => right.walk p >>= fun b =>
          run p rest (some .closeParen) (b :: a :: operands) (.binary op :: deferred) := by
        congr 1
        funext a
        rw [run_binary hop hbinary, reduceFor_admitted hadmits hprec, pure_bind]
        exact hright rest (Level.ends_next hrest) _ hunary _ _ hrightAdmits
    _ = (Expr.binary op left right).walk p >>= fun v =>
          run p rest (some .closeParen) (v :: operands) deferred := by
        simp only [Expr.walk, bind_assoc]
        congr 1
        funext a
        congr 1
        funext b
        rw [run_applyPending (by simp) (hflush hrest) rfl]
        simp only [applyDeferred, bind_assoc, pure_bind]

theorem Derives.simulates {ℓ : Level} {e : Expr} (h : Derives ℓ e) (p : Precision) :
    Simulates p ℓ e := by
  induction h with
  | add hop _ _ ihLeft ihRight =>
      rcases hop with rfl | rfl <;>
        exact Simulates.binary rfl (by decide) (by decide) rfl
          (fun _ => ⟨by decide, by decide⟩) (Flushes.mono (by decide)) ihLeft ihRight
  | multiply hop _ _ ihLeft ihRight =>
      rcases hop with rfl | rfl | rfl <;>
        exact Simulates.binary rfl (by decide) (by decide) rfl
          (fun _ => ⟨by decide, by decide⟩) (Flushes.mono (by decide)) ihLeft ihRight
  | raise _ _ ihLeft ihRight =>
      exact Simulates.binary rfl (by decide) (by decide) rfl
        (fun _ => ⟨by decide, by decide⟩) (Flushes.mono (by decide)) ihLeft ihRight
  | sumOfProduct _ ih | productOfPower _ ih | powerOfUnit _ ih | unitOfAtom _ ih
  | atomOfGroup _ ih =>
      intro rest hrest prev hprev operands deferred hadmits
      exact ih rest (Level.ends_next hrest) prev hprev operands deferred
        (Level.admits_next hadmits)
  | @negation g hg ih =>
      intro rest hrest prev hprev operands deferred _
      obtain ⟨inner, hinner⟩ := hg.tokens_of_group rfl
      calc run p ((.operator .minus :: g.tokens) ++ rest) prev operands deferred
          = run p (g.tokens ++ rest) (some (.operator .minus)) operands
              (.negation :: deferred) := by
            simp only [hinner, List.cons_append, run_negParen hprev]
        _ = g.walk p >>= fun v =>
              run p rest (some .closeParen) (v :: operands) (.negation :: deferred) :=
            ih rest trivial _ rfl operands _ (Level.admits_of_binds rfl _)
        _ = (Expr.negation g).walk p >>= fun v =>
              run p rest (some .closeParen) (v :: operands) deferred := by
            simp only [Expr.walk, bind_assoc]
            congr 1
            funext v
            -- the deferred negation is flushed by whatever ends the unit
            rw [run_applyPending (by decide) hrest rfl]
            simp only [applyDeferred, bind_assoc, pure_bind]
  | number text =>
      intro rest _ prev _ operands deferred _
      simp only [Expr.tokens, List.singleton_append, run_number, Expr.walk]
      congr 1
      funext x
      exact run_congr_prev _ (by rfl) rest
  | negNumber text =>
      intro rest _ prev hprev operands deferred _
      simp only [Expr.tokens, List.cons_append, List.nil_append, run_negNumber hprev, Expr.walk,
        bind_assoc, pure_bind]
      congr 1
      funext x
      exact run_congr_prev _ (by rfl) rest
  | constant c =>
      intro rest _ prev _ operands deferred _
      simp only [Expr.tokens, List.singleton_append, run_constant, Expr.walk]
      congr 1
      funext x
      exact run_congr_prev _ (by rfl) rest
  | @call f e _ ih =>
      intro rest _ prev _ operands deferred _
      have hsplit : splitGroup 0 (e.tokens ++ .closeParen :: rest) = some (e.tokens, rest) := by
        simp [splitGroup_tokens_append, splitGroup]
      -- the argument is evaluated on its own, from empty stacks
      have hargument : run p e.tokens none [] [] = e.walk p := by
        have hsim := ih [] trivial none rfl [] [] trivial
        simpa only [List.append_nil, run_nil, result_singleton, bind_pure] using hsim
      simp only [Expr.tokens, List.cons_append, List.append_assoc, List.nil_append, run_call (Function.ofName?_name f) hsplit, hargument, Expr.walk,
        bind_assoc]
  | @atomFactorial e _ ih | @groupFactorial e _ ih =>
      intro rest _ prev hprev operands deferred _
      calc run p ((e.tokens ++ [.operator .bang]) ++ rest) prev operands deferred
          = e.walk p >>= fun v =>
              run p (.operator .bang :: rest) (some .closeParen) (v :: operands) deferred := by
            rw [List.append_assoc, List.singleton_append]
            exact ih _ trivial prev hprev operands deferred (Level.admits_of_binds rfl _)
        _ = (Expr.factorial e).walk p >>= fun v =>
              run p rest (some .closeParen) (v :: operands) deferred := by
            simp only [run_bang, factorialOf_cons, Expr.walk, bind_assoc, pure_bind]
            congr 1
            funext v
            congr 1
            funext w
            exact run_congr_prev _ (by rfl) rest
  | @paren e _ ih =>
      intro rest _ prev _ operands deferred _
      calc run p ((.openParen :: e.tokens ++ [.closeParen]) ++ rest) prev operands deferred
          = run p (e.tokens ++ .closeParen :: rest) (some .openParen) operands
              (.openParen :: deferred) := by
            simp only [List.cons_append, List.append_assoc, List.nil_append, run_openParen]
        _ = e.walk p >>= fun v =>
              run p (.closeParen :: rest) (some .closeParen) (v :: operands)
                (.openParen :: deferred) :=
            ih (.closeParen :: rest) trivial _ rfl operands _ (Or.inl rfl)
        _ = (Expr.paren e).walk p >>= fun v =>
              run p rest (some .closeParen) (v :: operands) deferred := by
            simp only [Expr.walk, run_closeParen, closeGroup_openParen, pure_bind]

/-- On the tokens of a sum of the grammar, the evaluator returns the value of its parse tree:
literals read exactly, each node computed from its operands' values, and the fault of the first
node that fails. -/
theorem run_tokens_eq_value {e : Expr} (h : Derives .sum e) (p : Precision)
    (trace : Array Step) :
    ((run p e.tokens none [] []).run.run trace).1 = e.value p := by
  have hsim := h.simulates p [] trivial none rfl [] [] trivial
  simp only [List.append_nil, run_nil, result_singleton, bind_pure] at hsim
  rw [hsim]
  exact e.walk_yields p trace

theorem run_tokens_eq_value_sample :
    Derives .sum (.binary .minus (.negation (.factorial (.paren (.number "3"))))
      (.binary .times (.number "2") (.binary .caret (.number "2") (.negNumber "1")))) ∧
    ((run ⟨10, by decide, by decide⟩
        (Expr.binary .minus (.negation (.factorial (.paren (.number "3"))))
          (.binary .times (.number "2") (.binary .caret (.number "2") (.negNumber "1")))).tokens
        none [] []).run.run #[]).1 =
      (Expr.binary .minus (.negation (.factorial (.paren (.number "3"))))
        (.binary .times (.number "2") (.binary .caret (.number "2") (.negNumber "1")))).value
        ⟨10, by decide, by decide⟩ := by
  have h : Derives .sum (.binary .minus (.negation (.factorial (.paren (.number "3"))))
      (.binary .times (.number "2") (.binary .caret (.number "2") (.negNumber "1")))) :=
    .add (.inr rfl)
      (.sumOfProduct (.productOfPower (.powerOfUnit
        (.negation (.groupFactorial (.paren (.sumOfProduct (.productOfPower (.powerOfUnit
          (.unitOfAtom (.number "3")))))))))))
      (.multiply (.inl rfl) (.productOfPower (.powerOfUnit (.unitOfAtom (.number "2"))))
        (.raise (.powerOfUnit (.unitOfAtom (.number "2"))) (.unitOfAtom (.negNumber "1"))))
  exact ⟨h, run_tokens_eq_value h _ _⟩

end Calculator.Evaluation
