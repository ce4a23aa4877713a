/-!
Erasing at the end of an entry. A backspace drops trailing spaces, then a whole function key
(`arcsin(`, `√(`, …) when the entry ends with one, longest names first, and otherwise one
character, then the trailing spaces that are left.
-/

namespace Calculator.Worksheet

/-- The texts of the function keys, erased as a whole; longer names come before the names they
end with. -/
def erasedKeys : List String :=
  ["arcsin(", "arccos(", "arctan(", "sinh(", "cosh(", "tanh(", "sin(", "cos(", "tan(", "log(",
   "exp(", "ln(", "√("]

/-- The characters without their trailing spaces. -/
def dropTrailingSpaces (cs : List Char) : List Char :=
  (cs.reverse.dropWhile (· == ' ')).reverse

/-- The characters without the first function key they end with, or without their last
character. -/
def eraseLast (cs : List Char) : List Char :=
  match erasedKeys.find? (fun key => key.toList.isSuffixOf cs) with
  | some key => cs.take (cs.length - key.length)
  | none => cs.dropLast

/-- The entry after a backspace. -/
def backspace (entry : String) : String :=
  String.ofList (dropTrailingSpaces (eraseLast (dropTrailingSpaces entry.toList)))

end Calculator.Worksheet
