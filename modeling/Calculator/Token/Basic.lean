/-!
Tokens of an arithmetic expression: number texts, names, operators, parentheses and the
constants π and e. A number keeps its text as written, to be read as a decimal literal when it
is evaluated. Each token has a text, and a list of tokens is shown as their texts with one
space between them.
-/

namespace Calculator

/-- The operators. `C` and `P` (combinations and arrangements) are read but have no
arithmetic. -/
inductive Operator where
  | plus
  | minus
  | times
  | slash
  | obelus
  | caret
  | bang
  | choose
  | arrange
  deriving DecidableEq, Repr

namespace Operator

/-- The symbol of an operator. -/
def symbol : Operator → Char
  | plus => '+'
  | minus => '-'
  | times => '*'
  | slash => '/'
  | obelus => '÷'
  | caret => '^'
  | bang => '!'
  | choose => 'C'
  | arrange => 'P'

/-- The operator written by a one-character symbol; `C` and `P` are letters and are read as
names first. -/
def ofSymbol? : Char → Option Operator
  | '+' => some plus
  | '-' => some minus
  | '*' => some times
  | '/' => some slash
  | '÷' => some obelus
  | '^' => some caret
  | '!' => some bang
  | _ => none

end Operator

/-- The named constants. -/
inductive Constant where
  | pi
  | e
  deriving DecidableEq, Repr

/-- The name of a constant. -/
def Constant.text : Constant → String
  | .pi => "π"
  | .e => "e"

/-- A token of an expression. -/
inductive Token where
  /-- A number as written, checked when it is evaluated. -/
  | number (text : String)
  /-- A function name, or a name that is no function. -/
  | name (text : String)
  | operator (op : Operator)
  | openParen
  | closeParen
  | constant (c : Constant)
  deriving DecidableEq, Repr

namespace Token

/-- The text of a token. -/
def text : Token → String
  | number t => t
  | name t => t
  | operator op => op.symbol.toString
  | openParen => "("
  | closeParen => ")"
  | constant c => c.text

/-- Tokens shown as their texts with one space between them. -/
def format (tokens : List Token) : String := " ".intercalate (tokens.map text)

end Token

end Calculator
