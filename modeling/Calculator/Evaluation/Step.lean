import Calculator.Token.Basic
import Calculator.Elementary.Function
/-!
The pieces of the evaluator: the steps it records, the entries of its operator stack with their
precedences, where a minus sign is unary, and how a parenthesised group is found.
-/

namespace Calculator.Evaluation

open Elementary

/-- A step of an evaluation, as its trace records it, before the step's arithmetic. -/
inductive Step where
  /-- A negation deferred by `-(` is applied to its operand. -/
  | negation (operand : Decimal)
  /-- A binary operator is applied to its two operands. -/
  | operator (op : Operator) (left right : Decimal)
  /-- A factorial is taken of an accepted operand. -/
  | factorial (n : Nat)
  /-- A function is applied to its evaluated argument. -/
  | call (f : Function) (argument : Decimal)
  deriving DecidableEq, Repr

/-- An entry of the operator stack. -/
inductive Deferred where
  | binary (op : Operator)
  /-- `-(`: negates the value of the group once it is reduced. -/
  | negation
  | openParen
  deriving DecidableEq, Repr

/-- How tightly an entry of the operator stack binds. -/
def Deferred.precedence : Deferred → Nat
  | .binary .plus | .binary .minus => 1
  | .binary .times | .binary .slash | .binary .obelus => 2
  | .binary .caret => 3
  | .negation => 3
  | .binary .bang | .binary .choose | .binary .arrange => 0
  | .openParen => 0

/-- Whether a minus sign after the token `prev` (none at the start) is unary: at the start,
after an opening parenthesis, or after one of `+ - * / ÷ ^`. -/
def unaryAfter : Option Token → Bool
  | none => true
  | some .openParen => true
  | some (.operator .plus) | some (.operator .minus) | some (.operator .times) => true
  | some (.operator .slash) | some (.operator .obelus) | some (.operator .caret) => true
  | some _ => false

/-- Splits the tokens after an opening parenthesis at the parenthesis that closes it, into
the tokens inside and the tokens after; `depth` counts the groups opened inside. -/
def splitGroup (depth : Nat) : List Token → Option (List Token × List Token)
  | [] => none
  | .closeParen :: rest =>
    if depth = 0 then some ([], rest)
    else (splitGroup (depth - 1) rest).map fun (inside, after) => (.closeParen :: inside, after)
  | .openParen :: rest =>
    (splitGroup (depth + 1) rest).map fun (inside, after) => (.openParen :: inside, after)
  | t :: rest => (splitGroup depth rest).map fun (inside, after) => (t :: inside, after)

theorem splitGroup_length {depth : Nat} {ts inside after : List Token}
    (h : splitGroup depth ts = some (inside, after)) :
    inside.length + after.length + 1 = ts.length := by
  induction ts generalizing depth inside after with
  | nil => simp [splitGroup] at h
  | cons t rest ih =>
    cases t with
    | closeParen =>
      by_cases hd : depth = 0
      · simp [splitGroup, hd] at h
        obtain ⟨rfl, rfl⟩ := h
        simp
      · simp only [splitGroup, hd, if_false, Option.map_eq_some_iff] at h
        obtain ⟨⟨i, a⟩, hs, he⟩ := h
        simp only [Prod.mk.injEq] at he
        obtain ⟨rfl, rfl⟩ := he
        have := ih hs
        simp only [List.length_cons]
        omega
    | openParen =>
      simp only [splitGroup, Option.map_eq_some_iff] at h
      obtain ⟨⟨i, a⟩, hs, he⟩ := h
      simp only [Prod.mk.injEq] at he
      obtain ⟨rfl, rfl⟩ := he
      have := ih hs
      simp only [List.length_cons]
      omega
    | number _ | name _ | operator _ | constant _ =>
      simp only [splitGroup, Option.map_eq_some_iff] at h
      obtain ⟨⟨i, a⟩, hs, he⟩ := h
      simp only [Prod.mk.injEq] at he
      obtain ⟨rfl, rfl⟩ := he
      have := ih hs
      simp only [List.length_cons]
      omega

end Calculator.Evaluation
