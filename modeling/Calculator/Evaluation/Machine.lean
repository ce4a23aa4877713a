import Calculator.Evaluation.Step
import Calculator.Elementary.Power
/-!
Evaluation of tokens with an operand stack and an operator stack, recording each step.
-/

namespace Calculator.Evaluation

open Elementary

/-- An evaluation: it fails with a fault or gives a value, and records its steps in order. -/
abbrev Eval := ExceptT Fault (StateM (Array Step))

/-- Records a step. -/
def record (s : Step) : Eval Unit := modify (·.push s)

/-- The outcome of an arithmetic operation, as a step of an evaluation. -/
def lift {α : Type} : Except Fault α → Eval α
  | .ok a => pure a
  | .error f => throw f

/-- The largest operand of a factorial. -/
def factorialLimit : Nat := 100000

/-- The value of a binary operator; `!`, `C` and `P` have none. -/
def binaryValue (op : Operator) (a b : Decimal) (p : Precision) : Except Fault Decimal :=
  match op with
  | .plus => a.add b p
  | .minus => a.sub b p
  | .times => a.mul b p
  | .slash | .obelus => a.div b p
  | .caret => power a b p
  | .bang | .choose | .arrange => .error (.unknownOperator op.symbol)

/-- Applies a stacked operator to the operands on top of the stack. -/
def applyDeferred (p : Precision) (d : Deferred) (operands : List Decimal) :
    Eval (List Decimal) :=
  match d, operands with
  | .negation, x :: rest => do
    record (.negation x)
    pure (-x :: rest)
  | .binary op, b :: a :: rest => do
    record (.operator op a b)
    let v ← lift (binaryValue op a b p)
    pure (v :: rest)
  | .openParen, _ => throw .unbalancedParens
  | _, _ => throw .malformedExpression

/-- Applies the stacked operators that bind at least as tightly as `op`, back to the nearest
opening parenthesis. -/
def reduceFor (p : Precision) (op : Operator) :
    List Deferred → List Decimal → Eval (List Deferred × List Decimal)
  | [], operands => pure ([], operands)
  | d :: ds, operands =>
    if d = .openParen ∨ d.precedence < (Deferred.binary op).precedence then
      pure (d :: ds, operands)
    else do reduceFor p op ds (← applyDeferred p d operands)

/-- Applies the stacked operators back to the nearest opening parenthesis, which is removed. -/
def closeGroup (p : Precision) : List Deferred → List Decimal → Eval (List Deferred × List Decimal)
  | [], _ => throw .unbalancedParens
  | .openParen :: ds, operands => pure (ds, operands)
  | d :: ds, operands => do closeGroup p ds (← applyDeferred p d operands)

/-- Applies every stacked operator, top first. -/
def applyAll (p : Precision) : List Deferred → List Decimal → Eval (List Decimal)
  | [], operands => pure operands
  | d :: ds, operands => do applyAll p ds (← applyDeferred p d operands)

/-- The value of a number token. -/
def readNumber (text : String) : Eval Decimal :=
  match Decimal.ofString? text with
  | some x => pure x
  | none => throw (.malformedNumber text)

/-- The value of a constant at precision `p`. -/
def constantValue (c : Constant) (p : Precision) : Eval Decimal :=
  match c with
  | .pi => pure (pi p)
  | .e => lift (eulerNumber p)

/-- Takes the factorial of the operand on top, which must be an integer from `0` to
`factorialLimit`. -/
def factorialOf (p : Precision) (operands : List Decimal) : Eval (List Decimal) :=
  match operands with
  | [] => throw (.invalidFactorial none)
  | x :: rest =>
    match x.toInt64? with
    | some n =>
      if 0 ≤ n ∧ n ≤ factorialLimit then do
        record (.factorial n.toNat)
        let v ← lift (factorial n.toNat p)
        pure (v :: rest)
      else throw (.invalidFactorial (some x))
    | none => throw (.invalidFactorial (some x))

/-- The single operand left when all operators are applied. -/
def result (p : Precision) (deferred : List Deferred) (operands : List Decimal) : Eval Decimal := do
  match ← applyAll p deferred operands with
  | [v] => pure v
  | _ => throw .malformedExpression

/-- Evaluates `tokens`, where `prev` is the token before them, with the stacks so far. -/
def run (p : Precision) (tokens : List Token) (prev : Option Token) (operands : List Decimal)
    (deferred : List Deferred) : Eval Decimal :=
  match tokens with
  | [] => result p deferred operands
  | t :: rest =>
    match t with
    | .number text => do
      let x ← readNumber text
      run p rest (some t) (x :: operands) deferred
    | .constant c => do
      let x ← constantValue c p
      run p rest (some t) (x :: operands) deferred
    | .operator .bang => do
      let operands ← factorialOf p operands
      run p rest (some t) operands deferred
    | .openParen => run p rest (some t) operands (.openParen :: deferred)
    | .closeParen => do
      let (deferred, operands) ← closeGroup p deferred operands
      run p rest (some t) operands deferred
    | .name n =>
      match Function.ofName? n with
      | none => throw (.unknownToken n)
      | some f =>
        match rest with
        | .openParen :: afterOpen =>
          match h : splitGroup 0 afterOpen with
          | none => throw .unbalancedParens
          | some (inside, after) => do
            have := splitGroup_length h
            let argument ← run p inside none [] []
            record (.call f argument)
            let v ← lift (f.apply argument p)
            run p after (some .closeParen) (v :: operands) deferred
        | _ => throw (.missingOpenParen n)
    | .operator op =>
      if op = .minus ∧ unaryAfter prev then
        match _ : rest with
        | .number text :: afterNumber => do
          let x ← readNumber text
          run p afterNumber (some (.number text)) (-x :: operands) deferred
        | .openParen :: _ => run p rest (some t) operands (.negation :: deferred)
        | _ => throw .invalidUnaryMinus
      else do
        let (deferred, operands) ← reduceFor p op deferred operands
        run p rest (some t) operands (.binary op :: deferred)
termination_by tokens.length
decreasing_by all_goals (simp_all only [List.length_cons]; omega)

/-- Evaluates tokens at precision `p`, rounding the value to `p` digits at the end. -/
def evaluate (tokens : List Token) (p : Precision) : Eval Decimal := do
  let v ← run p tokens none [] []
  lift (v.round p).checked

end Calculator.Evaluation
