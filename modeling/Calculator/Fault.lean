import Calculator.Decimal.Text
import Calculator.Text.Quoted
/-!
Why a computation fails. A text is refused either because a character belongs to no token
(`ScanError`) or because its tokens do not evaluate (`Fault`): a malformed expression, a
function outside its domain, a division by zero, a result beyond the exponent limit. Each
cause has one message, in French, as the calculator shows it.
-/

namespace Calculator

/-- Why a text could not be cut into tokens. -/
inductive ScanError where
  /-- The character starts no token. -/
  | invalidCharacter (c : Char)
  deriving DecidableEq, Repr

/-- The message of a scanning failure. -/
def ScanError.message : ScanError → String
  | .invalidCharacter c => "caractère invalide dans l’expression : '" ++ c.toString ++ "'"

/-- Why the evaluation of tokens failed. -/
inductive Fault where
  /-- A number token is no decimal literal. -/
  | malformedNumber (text : String)
  /-- A minus sign in operand position is followed by neither a number nor a parenthesis. -/
  | invalidUnaryMinus
  /-- An operator that has no arithmetic, named by its symbol. -/
  | unknownOperator (symbol : Char)
  /-- A closing parenthesis without an opening one, or the reverse. -/
  | unbalancedParens
  /-- A factorial of no operand (`none`) or of an operand that is no integer from 0 to 100000. -/
  | invalidFactorial (operand : Option Decimal)
  /-- A function name not followed by an opening parenthesis. -/
  | missingOpenParen (name : String)
  /-- A name that is no function. -/
  | unknownToken (name : String)
  /-- Operands and operators that do not make one value. -/
  | malformedExpression
  /-- A division, or a negative power, of zero. -/
  | divisionByZero
  /-- A function applied outside its domain, with the function's symbol and the argument. -/
  | outOfDomain (function : String) (argument : Decimal)
  /-- A nonzero result whose exponent exceeds the limit in size. -/
  | overflow
  deriving DecidableEq, Repr

/-- The message of an evaluation failure. -/
def Fault.message : Fault → String
  | .malformedNumber text => "nombre mal formé : " ++ Text.quote text
  | .invalidUnaryMinus => "usage invalide du moins unaire"
  | .unknownOperator symbol => "opérateur inconnu : '" ++ symbol.toString ++ "'"
  | .unbalancedParens => "parenthèses non équilibrées"
  | .invalidFactorial operand =>
    "usage invalide de la factorielle (!) : " ++
      match operand with
      | some x => x.toText
      | none => "opérande manquant"
  | .missingOpenParen name => "'(' attendue après la fonction " ++ name
  | .unknownToken name => "jeton inconnu : " ++ Text.quote name
  | .malformedExpression => "expression mal formée"
  | .divisionByZero => "division par zéro"
  | .outOfDomain function argument =>
    function ++ " : argument hors domaine (" ++ argument.toText ++ ")"
  | .overflow => "dépassement de capacité (exposant hors limites)"

end Calculator
