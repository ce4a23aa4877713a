import Calculator.Proofs.Soundness

namespace Calculator.Evaluation

open Elementary

/-! What the evaluator checks of the tokens it accepts. It counts operands only when it applies
an operator and never compares the order of operands and operators with the grammar. What it
accepts therefore has one operand more than binary operators, balanced parentheses and no `C`
or `P`, but need not be a sentence of the grammar: `+2(3)` is read as `2 + 3`. -/

def operandWeight (prev : Option Token) : Token → Int
  | .number _ | .constant _ => 1
  | .operator .bang => 0
  | .operator op => if op = .minus ∧ unaryAfter prev = true then 0 else -1
  | _ => 0

def surplus (prev : Option Token) : List Token → Int
  | [] => 0
  | t :: rest => operandWeight prev t + surplus (some t) rest

def closeDepth : Nat → List Token → Option Nat
  | depth, [] => some depth
  | depth, .openParen :: rest => closeDepth (depth + 1) rest
  | 0, .closeParen :: _ => none
  | depth + 1, .closeParen :: rest => closeDepth depth rest
  | depth, _ :: rest => closeDepth depth rest

end Calculator.Evaluation

namespace Calculator.Token

def combinatoric : Token → Bool
  | .operator .choose | .operator .arrange => true
  | _ => false

def startsOperand : Token → Bool
  | .number _ | .constant _ | .openParen | .name _ | .operator .minus => true
  | _ => false

end Calculator.Token

namespace Calculator.Evaluation

def Deferred.combinatoric : Deferred → Bool
  | .binary .choose | .binary .arrange => true
  | _ => false

def binaryCount : List Deferred → Nat
  | [] => 0
  | .binary _ :: rest => binaryCount rest + 1
  | _ :: rest => binaryCount rest

def openCount : List Deferred → Nat
  | [] => 0
  | .openParen :: rest => openCount rest + 1
  | _ :: rest => openCount rest

theorem binaryCount_cons (d : Deferred) (rest : List Deferred) :
    binaryCount (d :: rest) = binaryCount [d] + binaryCount rest := by
  cases d <;> simp only [binaryCount] <;> omega

theorem openCount_cons {d : Deferred} (hd : d ≠ .openParen) (rest : List Deferred) :
    openCount (d :: rest) = openCount rest := by
  cases d with
  | openParen => exact absurd rfl hd
  | binary | negation => rfl

theorem surplus_congr_prev {prev prev' : Option Token} (h : unaryAfter prev = unaryAfter prev')
    (tokens : List Token) : surplus prev tokens = surplus prev' tokens := by
  cases tokens with
  | nil => rfl
  | cons t rest =>
      have hweight : operandWeight prev t = operandWeight prev' t := by
        cases t with
        | operator op => cases op <;> simp only [operandWeight, h]
        | _ => rfl
      simp only [surplus, hweight]

theorem surplus_append_closeParen (prev : Option Token) (inside after : List Token) :
    surplus prev (inside ++ .closeParen :: after) =
      surplus prev inside + surplus (some .closeParen) after := by
  induction inside generalizing prev with
  | nil => simp [surplus, operandWeight]
  | cons t rest ih =>
      simp only [List.cons_append, surplus, ih]
      omega

theorem closeDepth_append (depth : Nat) (front back : List Token) :
    closeDepth depth (front ++ back) =
      (closeDepth depth front).bind fun depth => closeDepth depth back := by
  induction front generalizing depth with
  | nil => rfl
  | cons t rest ih =>
      cases t with
      | openParen => simp only [List.cons_append, closeDepth, ih]
      | closeParen =>
          cases depth with
          | zero => rfl
          | succ depth => simp only [List.cons_append, closeDepth, ih]
      | number | name | operator | constant => simp only [List.cons_append, closeDepth, ih]

theorem closeDepth_add {depth depth' : Nat} {tokens : List Token}
    (h : closeDepth depth tokens = some depth') (extra : Nat) :
    closeDepth (depth + extra) tokens = some (depth' + extra) := by
  induction tokens generalizing depth with
  | nil =>
      cases h
      rfl
  | cons t rest ih =>
      cases t with
      | openParen =>
          simp only [closeDepth] at h ⊢
          rw [Nat.add_right_comm]
          exact ih h
      | closeParen =>
          cases depth with
          | zero => cases h
          | succ depth =>
              simp only [closeDepth] at h
              rw [Nat.add_right_comm]
              exact ih h
      | number | name | operator | constant =>
          simp only [closeDepth] at h ⊢
          exact ih h

theorem splitGroup_eq_append {depth : Nat} {tokens inside after : List Token}
    (h : splitGroup depth tokens = some (inside, after)) :
    tokens = inside ++ .closeParen :: after := by
  induction tokens generalizing depth inside after with
  | nil => simp [splitGroup] at h
  | cons t rest ih =>
      cases t with
      | closeParen =>
          by_cases hdepth : depth = 0
          · simp only [splitGroup, hdepth, if_true, Option.some.injEq, Prod.mk.injEq] at h
            obtain ⟨rfl, rfl⟩ := h
            rfl
          · simp only [splitGroup, hdepth, if_false, Option.map_eq_some_iff, Prod.exists,
              Prod.mk.injEq] at h
            obtain ⟨inside', after', hsplit, rfl, rfl⟩ := h
            rw [ih hsplit]
            rfl
      | openParen | number | name | operator | constant =>
          simp only [splitGroup, Option.map_eq_some_iff, Prod.exists, Prod.mk.injEq] at h
          obtain ⟨inside', after', hsplit, rfl, rfl⟩ := h
          rw [ih hsplit]
          rfl

/-! What a successful step of the operator stack leaves: the operands it takes are gone and its
result is there, and the entries it applied had arithmetic. -/

section Stacks

variable {p : Precision} {trace : Array Step}

theorem applyDeferred_ok {d : Deferred} {operands operands' : List Decimal}
    (h : ((applyDeferred p d operands).run.run trace).1 = .ok operands') :
    d ≠ .openParen ∧ d.combinatoric = false ∧
      operands'.length + binaryCount [d] = operands.length := by
  rcases d with op | _ | _ <;> rcases operands with _ | ⟨b, _ | ⟨a, rest⟩⟩ <;>
    simp only [applyDeferred] at h
  all_goals first | exact (Eval.ok_throw h).elim | skip
  · obtain ⟨_, _, h⟩ := Eval.ok_of_bind h
    obtain ⟨v, hvalue, h⟩ := Eval.ok_of_bind h
    cases Eval.ok_pure h
    refine ⟨by simp, ?_, by simp [binaryCount]⟩
    have hvalue := Eval.ok_lift hvalue
    cases op <;> first | rfl | cases hvalue
  · obtain ⟨_, _, h⟩ := Eval.ok_of_bind h
    cases Eval.ok_pure h
    exact ⟨by simp, rfl, by simp [binaryCount]⟩
  · obtain ⟨_, _, h⟩ := Eval.ok_of_bind h
    cases Eval.ok_pure h
    exact ⟨by simp, rfl, by simp [binaryCount]⟩

theorem reduceFor_ok {op : Operator} {deferred deferred' : List Deferred}
    {operands operands' : List Decimal}
    (h : ((reduceFor p op deferred operands).run.run trace).1 = .ok (deferred', operands')) :
    (operands'.length : Int) - binaryCount deferred' =
        operands.length - binaryCount deferred ∧
      openCount deferred' = openCount deferred ∧
      ∀ d ∈ deferred, d ∈ deferred' ∨ d.combinatoric = false := by
  induction deferred generalizing operands trace with
  | nil =>
      rw [reduceFor] at h
      obtain ⟨rfl, rfl⟩ := Prod.mk.inj (Eval.ok_pure h)
      exact ⟨rfl, rfl, fun d hd => Or.inl hd⟩
  | cons d rest ih =>
      by_cases hstop : d = .openParen ∨ d.precedence < (Deferred.binary op).precedence
      · rw [reduceFor_stop hstop] at h
        obtain ⟨rfl, rfl⟩ := Prod.mk.inj (Eval.ok_pure h)
        exact ⟨rfl, rfl, fun d hd => Or.inl hd⟩
      · rw [reduceFor_cons hstop] at h
        obtain ⟨middle, hmiddle, h⟩ := Eval.ok_of_bind h
        obtain ⟨hopen, hcombinatoric, hlength⟩ := applyDeferred_ok hmiddle
        obtain ⟨hcount, hopens, hmem⟩ := ih h
        refine ⟨?_, by rw [hopens, openCount_cons hopen], ?_⟩
        · rw [binaryCount_cons]
          omega
        · intro e he
          rcases List.mem_cons.mp he with rfl | he
          · exact Or.inr hcombinatoric
          · exact hmem e he

theorem closeGroup_ok {deferred deferred' : List Deferred} {operands operands' : List Decimal}
    (h : ((closeGroup p deferred operands).run.run trace).1 = .ok (deferred', operands')) :
    (operands'.length : Int) - binaryCount deferred' =
        operands.length - binaryCount deferred ∧
      openCount deferred = openCount deferred' + 1 ∧
      ∀ d ∈ deferred, d ∈ deferred' ∨ d.combinatoric = false := by
  induction deferred generalizing operands trace with
  | nil => exact (Eval.ok_throw h).elim
  | cons d rest ih =>
      by_cases hd : d = .openParen
      · subst hd
        rw [closeGroup_openParen] at h
        obtain ⟨rfl, rfl⟩ := Prod.mk.inj (Eval.ok_pure h)
        refine ⟨by simp [binaryCount], rfl, ?_⟩
        intro e he
        rcases List.mem_cons.mp he with rfl | he
        · exact Or.inr rfl
        · exact Or.inl he
      · rw [closeGroup_cons hd] at h
        obtain ⟨middle, hmiddle, h⟩ := Eval.ok_of_bind h
        obtain ⟨hopen, hcombinatoric, hlength⟩ := applyDeferred_ok hmiddle
        obtain ⟨hcount, hopens, hmem⟩ := ih h
        refine ⟨?_, by rw [openCount_cons hopen, hopens], ?_⟩
        · rw [binaryCount_cons]
          omega
        · intro e he
          rcases List.mem_cons.mp he with rfl | he
          · exact Or.inr hcombinatoric
          · exact hmem e he

theorem applyAll_ok {deferred : List Deferred} {operands operands' : List Decimal}
    (h : ((applyAll p deferred operands).run.run trace).1 = .ok operands') :
    operands'.length + binaryCount deferred = operands.length ∧ openCount deferred = 0 ∧
      ∀ d ∈ deferred, d.combinatoric = false := by
  induction deferred generalizing operands trace with
  | nil =>
      rw [applyAll] at h
      cases Eval.ok_pure h
      exact ⟨rfl, rfl, fun _ hd => absurd hd List.not_mem_nil⟩
  | cons d rest ih =>
      rw [applyAll_cons] at h
      obtain ⟨middle, hmiddle, h⟩ := Eval.ok_of_bind h
      obtain ⟨hopen, hcombinatoric, hlength⟩ := applyDeferred_ok hmiddle
      obtain ⟨hcount, hopens, hall⟩ := ih h
      refine ⟨?_, by rw [openCount_cons hopen, hopens], ?_⟩
      · rw [binaryCount_cons]
        omega
      · intro e he
        rcases List.mem_cons.mp he with rfl | he
        · exact hcombinatoric
        · exact hall e he

theorem factorialOf_ok {operands operands' : List Decimal}
    (h : ((factorialOf p operands).run.run trace).1 = .ok operands') :
    operands'.length = operands.length := by
  cases operands with
  | nil => exact (Eval.ok_throw h).elim
  | cons x rest =>
      rw [factorialOf_cons] at h
      obtain ⟨v, _, h⟩ := Eval.ok_of_bind h
      cases Eval.ok_pure h
      rfl

end Stacks

theorem operandWeight_binary {prev : Option Token} {op : Operator} (hbang : op ≠ .bang)
    (hbinary : ¬(op = .minus ∧ unaryAfter prev = true)) :
    operandWeight prev (.operator op) = -1 := by
  cases op <;> simp_all [operandWeight]

theorem operandWeight_unary {prev : Option Token} {op : Operator}
    (hunary : op = .minus ∧ unaryAfter prev = true) : operandWeight prev (.operator op) = 0 := by
  obtain ⟨rfl, hprev⟩ := hunary
  simp [operandWeight, hprev]

structure Balanced (prev : Option Token) (tokens : List Token) (operands : List Decimal)
    (deferred : List Deferred) : Prop where
  count : (operands.length : Int) - binaryCount deferred + surplus prev tokens = 1
  parens : closeDepth (openCount deferred) tokens = some 0
  tokens_arithmetic : ∀ t ∈ tokens, t.combinatoric = false
  deferred_arithmetic : ∀ d ∈ deferred, d.combinatoric = false

theorem run_ok_balanced_from {p : Precision} {tokens : List Token} {prev : Option Token}
    {operands : List Decimal} {deferred : List Deferred} {trace : Array Step} {v : Decimal}
    (h : ((run p tokens prev operands deferred).run.run trace).1 = .ok v) :
    Balanced prev tokens operands deferred := by
  fun_induction run p tokens prev operands deferred generalizing trace v with
  | case1 prev operands deferred =>
      -- at the end every pending entry is applied and exactly one operand is left
      obtain ⟨left, hleft, h⟩ := Eval.ok_of_bind h
      obtain ⟨hlength, hopens, hall⟩ := applyAll_ok hleft
      have hone : left.length = 1 := by
        rcases left with _ | ⟨w, _ | ⟨_, _⟩⟩
        · exact (Eval.ok_throw h).elim
        · rfl
        · exact (Eval.ok_throw h).elim
      refine ⟨?_, by simp [closeDepth, hopens], by simp, hall⟩
      simp only [surplus]
      omega
  | case2 prev operands deferred rest text ih | case3 prev operands deferred rest text ih =>
      obtain ⟨x, _, h⟩ := Eval.ok_of_bind h
      have hrest := ih x h
      refine ⟨?_, hrest.parens, ?_, hrest.deferred_arithmetic⟩
      · have hcount := hrest.count
        simp only [List.length_cons, surplus, operandWeight] at hcount ⊢
        omega
      · intro t ht
        rcases List.mem_cons.mp ht with rfl | ht
        · rfl
        · exact hrest.tokens_arithmetic t ht
  | case4 prev operands deferred rest ih =>
      obtain ⟨operands', hfactorial, h⟩ := Eval.ok_of_bind h
      have hrest := ih operands' h
      refine ⟨?_, hrest.parens, ?_, hrest.deferred_arithmetic⟩
      · have hcount := hrest.count
        rw [factorialOf_ok hfactorial] at hcount
        simp only [surplus, operandWeight]
        omega
      · intro t ht
        rcases List.mem_cons.mp ht with rfl | ht
        · rfl
        · exact hrest.tokens_arithmetic t ht
  | case5 prev operands deferred rest ih =>
      have hrest := ih h
      refine ⟨?_, hrest.parens, ?_, fun d hd => hrest.deferred_arithmetic d
        (List.mem_cons_of_mem _ hd)⟩
      · have hcount := hrest.count
        simp only [binaryCount] at hcount
        simp only [surplus, operandWeight]
        omega
      · intro t ht
        rcases List.mem_cons.mp ht with rfl | ht
        · rfl
        · exact hrest.tokens_arithmetic t ht
  | case6 prev operands deferred rest ih =>
      obtain ⟨⟨deferred', operands'⟩, hclose, h⟩ := Eval.ok_of_bind h
      obtain ⟨hcountClose, hopens, hmem⟩ := closeGroup_ok hclose
      have hrest := ih deferred' operands' h
      refine ⟨?_, by rw [hopens]; exact hrest.parens, ?_, ?_⟩
      · have hcount := hrest.count
        simp only [surplus, operandWeight]
        omega
      · intro t ht
        rcases List.mem_cons.mp ht with rfl | ht
        · rfl
        · exact hrest.tokens_arithmetic t ht
      · intro d hd
        rcases hmem d hd with hd | hd
        · exact hrest.deferred_arithmetic d hd
        · exact hd
  | case7 | case8 | case10 | case13 => exact (Eval.ok_throw h).elim
  | case9 prev operands deferred name f hf afterOpen inside after hsplit _ ihInside ihAfter =>
      obtain ⟨argument, hargument, h⟩ := Eval.ok_of_bind h
      obtain ⟨_, _, h⟩ := Eval.ok_of_bind h
      obtain ⟨w, _, h⟩ := Eval.ok_of_bind h
      -- the argument was evaluated on its own stacks, so it balances by itself
      have hinside := ihInside hargument
      have hafter := ihAfter w h
      have hcongr : surplus (some .openParen) inside = surplus none inside :=
        surplus_congr_prev (by rfl) inside
      have hinsideParens := closeDepth_add hinside.parens (openCount deferred + 1)
      simp only [openCount, Nat.zero_add] at hinsideParens
      rw [splitGroup_eq_append hsplit]
      refine ⟨?_, ?_, ?_, hafter.deferred_arithmetic⟩
      · have hinsideCount := hinside.count
        have hafterCount := hafter.count
        simp only [List.length_nil, binaryCount] at hinsideCount
        rw [surplus, surplus, surplus_append_closeParen, hcongr]
        simp only [operandWeight, List.length_cons] at hafterCount ⊢
        omega
      · simp only [closeDepth, closeDepth_append, hinsideParens, Option.bind_some]
        exact hafter.parens
      · intro t ht
        simp only [List.mem_cons, List.mem_append] at ht
        rcases ht with rfl | rfl | ht | rfl | ht
        · rfl
        · rfl
        · exact hinside.tokens_arithmetic t ht
        · rfl
        · exact hafter.tokens_arithmetic t ht
  | case11 prev operands deferred op _ hunary text afterNumber ih =>
      obtain ⟨x, _, h⟩ := Eval.ok_of_bind h
      have hrest := ih x h
      refine ⟨?_, hrest.parens, ?_, hrest.deferred_arithmetic⟩
      · have hcount := hrest.count
        simp only [List.length_cons] at hcount
        simp only [surplus, operandWeight_unary hunary]
        simp only [operandWeight]
        omega
      · intro t ht
        obtain ⟨rfl, -⟩ := hunary
        simp only [List.mem_cons] at ht
        rcases ht with rfl | rfl | ht
        · rfl
        · rfl
        · exact hrest.tokens_arithmetic t ht
  | case12 prev operands deferred op _ hunary rest ih =>
      have hrest := ih h
      refine ⟨?_, hrest.parens, ?_, fun d hd => hrest.deferred_arithmetic d
        (List.mem_cons_of_mem _ hd)⟩
      · have hcount := hrest.count
        simp only [binaryCount] at hcount
        simp only [surplus, operandWeight_unary hunary] at hcount ⊢
        omega
      · intro t ht
        obtain ⟨rfl, -⟩ := hunary
        rcases List.mem_cons.mp ht with rfl | ht
        · rfl
        · exact hrest.tokens_arithmetic t ht
  | case14 prev operands deferred rest op hbang hbinary ih =>
      obtain ⟨⟨deferred', operands'⟩, hreduce, h⟩ := Eval.ok_of_bind h
      obtain ⟨hcountReduce, hopens, hmem⟩ := reduceFor_ok hreduce
      have hrest := ih deferred' operands' h
      refine ⟨?_, by rw [← hopens]; exact hrest.parens, ?_, ?_⟩
      · have hcount := hrest.count
        simp only [binaryCount] at hcount
        simp only [surplus, operandWeight_binary hbang hbinary]
        omega
      · intro t ht
        rcases List.mem_cons.mp ht with rfl | ht
        · -- the operator itself was left pending, so it has arithmetic
          have hpending := hrest.deferred_arithmetic _ List.mem_cons_self
          cases op <;> first | rfl | cases hpending
        · exact hrest.tokens_arithmetic t ht
      · intro d hd
        rcases hmem d hd with hd | hd
        · exact hrest.deferred_arithmetic d (List.mem_cons_of_mem _ hd)
        · exact hd

/-- The evaluator accepts only tokens with one operand more than binary operators (a minus where
a minus is unary counting as none), balanced parentheses, and no `C` or `P`. -/
theorem run_ok_balanced {p : Precision} {tokens : List Token} {trace : Array Step}
    {v : Decimal} (h : ((run p tokens none [] []).run.run trace).1 = .ok v) :
    surplus none tokens = 1 ∧ closeDepth 0 tokens = some 0 ∧
      ∀ t ∈ tokens, t.combinatoric = false := by
  have hbalanced := run_ok_balanced_from h
  have hcount := hbalanced.count
  simp only [List.length_nil, binaryCount] at hcount
  exact ⟨by omega, hbalanced.parens, hbalanced.tokens_arithmetic⟩

theorem run_leading_plus :
    ((run ⟨10, by decide, by decide⟩
        [.operator .plus, .number "2", .openParen, .number "3", .closeParen] none [] []).run.run
        #[]).1 = .ok 5 := by
  have hvalue : ((run ⟨10, by decide, by decide⟩
      [.operator .plus, .number "2", .openParen, .number "3", .closeParen] none [] []).run.run
      #[]).1.toOption = some 5 := by
    with_unfolding_all decide
  generalize ((run ⟨10, by decide, by decide⟩
      [.operator .plus, .number "2", .openParen, .number "3", .closeParen] none [] []).run.run
      #[]).1 = outcome at hvalue ⊢
  cases outcome with
  | error => cases hvalue
  | ok x => cases hvalue; rfl

theorem run_ok_balanced_leading_plus :
    ((run ⟨10, by decide, by decide⟩
        [.operator .plus, .number "2", .openParen, .number "3", .closeParen] none [] []).run.run
        #[]).1 = .ok 5 ∧
      surplus none [.operator .plus, .number "2", .openParen, .number "3", .closeParen] = 1 ∧
      closeDepth 0 [.operator .plus, .number "2", .openParen, .number "3", .closeParen] = some 0 ∧
      ∀ t ∈ [Token.operator .plus, .number "2", .openParen, .number "3", .closeParen],
        t.combinatoric = false :=
  ⟨run_leading_plus, run_ok_balanced run_leading_plus⟩

theorem Derives.startsOperand {ℓ : Level} {e : Expr} (h : Derives ℓ e) :
    ∃ t rest, e.tokens = t :: rest ∧ t.startsOperand = true := by
  induction h with
  | add _ _ _ ih _ | multiply _ _ _ ih _ | raise _ _ ih _ =>
      obtain ⟨t, rest, htokens, ht⟩ := ih
      exact ⟨t, rest ++ _, by rw [Expr.tokens, htokens, List.cons_append], ht⟩
  | atomFactorial _ ih | groupFactorial _ ih =>
      obtain ⟨t, rest, htokens, ht⟩ := ih
      exact ⟨t, rest ++ _, by rw [Expr.tokens, htokens, List.cons_append], ht⟩
  | sumOfProduct _ ih | productOfPower _ ih | powerOfUnit _ ih | unitOfAtom _ ih
  | atomOfGroup _ ih => exact ih
  | negation | number | negNumber | constant | call | paren => exact ⟨_, _, rfl, rfl⟩

/-- `+2(3)` is no sentence of the grammar, since no sentence starts with a binary operator, yet
the evaluator reads it as `2 + 3`. -/
theorem run_accepts_leading_plus :
    (¬∃ e, Derives .sum e ∧
        e.tokens = [.operator .plus, .number "2", .openParen, .number "3", .closeParen]) ∧
      ((run ⟨10, by decide, by decide⟩
        [.operator .plus, .number "2", .openParen, .number "3", .closeParen] none [] []).run.run
        #[]).1 = .ok 5 := by
  refine ⟨?_, run_leading_plus⟩
  rintro ⟨e, he, htokens⟩
  obtain ⟨t, rest, hstart, ht⟩ := he.startsOperand
  rw [htokens] at hstart
  cases (List.cons.inj hstart).1
  cases ht

end Calculator.Evaluation
