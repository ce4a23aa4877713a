import Calculator.Evaluation.Machine

namespace Calculator.Evaluation

open Elementary

/-! The infix grammar of expressions, its parse trees, and the value of a tree.

Sums of products of powers of units, every level left-associative:

  E1 := E1 (+|-) E2 | E2      E2 := E2 (*|/|÷) E3 | E3      E3 := E3 ^ U | U
  U  := - G | A               G  := ( E1 ) | G !
  A  := Num | - Num | Const | G | F ( E1 ) | A !

A minus that starts a unit stands where a minus is unary: at the start, after an opening
parenthesis, or after a binary operator. The value of a tree is computed from the left, the
operands of a node before the node itself, and fails with the first failing node. -/

inductive Expr where
  | number (text : String)
  /-- `- Num`: the literal, negated. -/
  | negNumber (text : String)
  | constant (c : Constant)
  | paren (e : Expr)
  | call (f : Function) (argument : Expr)
  | factorial (e : Expr)
  /-- `- G`: the negation of a parenthesised group and the factorials after it. -/
  | negation (e : Expr)
  | binary (op : Operator) (left right : Expr)
  deriving DecidableEq, Repr

inductive Level where
  | sum
  | product
  | power
  | unit
  | atom
  | group
  deriving DecidableEq, Repr

namespace Expr

def tokens : Expr → List Token
  | number text => [.number text]
  | negNumber text => [.operator .minus, .number text]
  | constant c => [.constant c]
  | paren e => .openParen :: e.tokens ++ [.closeParen]
  | call f e => .name f.name :: .openParen :: e.tokens ++ [.closeParen]
  | factorial e => e.tokens ++ [.operator .bang]
  | negation e => .operator .minus :: e.tokens
  | binary op left right => left.tokens ++ .operator op :: right.tokens

end Expr

inductive Derives : Level → Expr → Prop where
  | add {op left right} (hop : op = .plus ∨ op = .minus) :
      Derives .sum left → Derives .product right → Derives .sum (.binary op left right)
  | multiply {op left right} (hop : op = .times ∨ op = .slash ∨ op = .obelus) :
      Derives .product left → Derives .power right → Derives .product (.binary op left right)
  | raise {left right} :
      Derives .power left → Derives .unit right → Derives .power (.binary .caret left right)
  | sumOfProduct {e} : Derives .product e → Derives .sum e
  | productOfPower {e} : Derives .power e → Derives .product e
  | powerOfUnit {e} : Derives .unit e → Derives .power e
  | negation {e} : Derives .group e → Derives .unit (.negation e)
  | unitOfAtom {e} : Derives .atom e → Derives .unit e
  | number (text) : Derives .atom (.number text)
  | negNumber (text) : Derives .atom (.negNumber text)
  | constant (c) : Derives .atom (.constant c)
  | call (f) {e} : Derives .sum e → Derives .atom (.call f e)
  | atomOfGroup {e} : Derives .group e → Derives .atom e
  | atomFactorial {e} : Derives .atom e → Derives .atom (.factorial e)
  | paren {e} : Derives .sum e → Derives .group (.paren e)
  | groupFactorial {e} : Derives .group e → Derives .group (.factorial e)

def literal (text : String) : Except Fault Decimal :=
  match Decimal.ofString? text with
  | some x => .ok x
  | none => .error (.malformedNumber text)

def factorialRule (x : Decimal) (p : Precision) : Except Fault Decimal :=
  match x.toInt64? with
  | some n => if 0 ≤ n ∧ n ≤ factorialLimit then factorial n.toNat p
    else .error (.invalidFactorial (some x))
  | none => .error (.invalidFactorial (some x))

namespace Expr

def value (p : Precision) : Expr → Except Fault Decimal
  | number text => literal text
  | negNumber text => do return -(← literal text)
  | constant .pi => .ok (pi p)
  | constant .e => eulerNumber p
  | paren e => e.value p
  | call f e => do f.apply (← e.value p) p
  | factorial e => do factorialRule (← e.value p) p
  | negation e => do return -(← e.value p)
  | binary op left right => do binaryValue op (← left.value p) (← right.value p) p

end Expr

end Calculator.Evaluation
