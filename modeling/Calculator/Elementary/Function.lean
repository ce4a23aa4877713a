import Calculator.Elementary.Trig
import Calculator.Elementary.Arctan
import Calculator.Elementary.Hyperbolic
import Calculator.Elementary.Log
/-!
The functions an expression may call by name, each of one argument: the circular functions
and their inverses, the hyperbolic functions, the square root `√`, the decimal logarithm `log`,
the natural logarithm `ln` and the exponential `exp`.
-/

namespace Calculator.Elementary

/-- A function that an expression may call by name. -/
inductive Function where
  | sin
  | cos
  | tan
  | arcsin
  | arccos
  | arctan
  | sinh
  | cosh
  | tanh
  | sqrt
  | log
  | ln
  | exp
  deriving DecidableEq, Repr

namespace Function

/-- Every function, in the order of the calculator's keys. -/
def all : List Function :=
  [sin, cos, tan, arcsin, arccos, arctan, sinh, cosh, tanh, sqrt, log, ln, exp]

/-- The name by which an expression calls a function. -/
def name : Function → String
  | sin => "sin"
  | cos => "cos"
  | tan => "tan"
  | arcsin => "arcsin"
  | arccos => "arccos"
  | arctan => "arctan"
  | sinh => "sinh"
  | cosh => "cosh"
  | tanh => "tanh"
  | sqrt => "√"
  | log => "log"
  | ln => "ln"
  | exp => "exp"

/-- The function called by a name, if any. -/
def ofName? (s : String) : Option Function := all.find? (·.name == s)

/-- Whether `x` lies where the function is defined over the reals: `√` at zero or more, the
logarithms above zero, the inverse sine and cosine on `[-1, 1]`, and the others everywhere. -/
def inDomain : Function → Decimal → Bool
  | sqrt, x => !x.isNeg
  | log, x | ln, x => decide (0 < x.sign)
  | arcsin, x | arccos, x => decide (x.abs ≤ Decimal.one)
  | _, _ => true

/-- The value of a function at `x`, at precision `p`. -/
def apply : Function → Decimal → Precision → Except Fault Decimal
  | sin => Elementary.sin
  | cos => Elementary.cos
  | tan => Elementary.tan
  | arcsin => Elementary.arcsin
  | arccos => Elementary.arccos
  | arctan => Elementary.arctan
  | sinh => Elementary.sinh
  | cosh => Elementary.cosh
  | tanh => Elementary.tanh
  | sqrt => Elementary.sqrt
  | log => Elementary.log10
  | ln => Elementary.ln
  | exp => Elementary.exp

end Function

end Calculator.Elementary
