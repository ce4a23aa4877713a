import Calculator.Worksheet.Erase
/-!
The state of the calculating paper: the entry being typed, the last result, the last error,
the tokens of the last evaluation, the precision, whether the entry has the focus, and the
sheet of evaluated lines, oldest first. The sheet keeps the last `maxLines` lines and the
precision stays in `[1, maxPrecision]`. Evaluation itself happens elsewhere: the state only
records what it is given.
-/

namespace Calculator.Worksheet

/-- The precision a fresh state starts with. -/
def defaultPrecision : Nat := 32

/-- The largest precision the state accepts. -/
def maxPrecision : Nat := 500

/-- The number of lines the sheet keeps. -/
def maxLines : Nat := 100

/-- A line of the sheet: what was typed, what came out, and at what precision. -/
structure Line where
  expression : String
  result : String
  precision : Nat
  deriving DecidableEq, Repr

/-- The state of the calculating paper. -/
structure State where
  entry : String := ""
  result : String := ""
  error : String := ""
  tokens : String := ""
  lines : List Line := []
  precision : Nat := defaultPrecision
  focusEntry : Bool := true
  deriving DecidableEq, Repr

/-- What the user or the view does to the state. -/
inductive Action where
  /-- Clears the entry, the results and the sheet, and restores the default precision. -/
  | resetAll
  /-- Clears the entry. -/
  | clearEntry
  /-- Clears the result, the error and the tokens. -/
  | clearResults
  /-- Shows an error; the last result and the tokens stay. -/
  | setError (message : String)
  /-- Shows a result and adds its line to the sheet. -/
  | setResult (expression result : String)
  /-- Sets the precision, brought into `[1, maxPrecision]`. -/
  | setPrecision (precision : Nat)
  /-- Appends the result of a line, in parentheses, to the entry. -/
  | reuse (index : Nat)
  /-- Empties the sheet. -/
  | clearSheet
  /-- Erases at the end of the entry. -/
  | backspace
  /-- Completes an edit that removed a final `(`: the name before it goes too. -/
  | completeErase (before : String)
  /-- The view writes the entry. -/
  | editEntry (text : String)
  /-- The view writes the tokens of an evaluation. -/
  | showTokens (text : String)
  /-- The view sets whether the entry has the focus. -/
  | setFocus (value : Bool)
  deriving DecidableEq, Repr

namespace State

/-- A fresh state: everything empty, the default precision, the focus on the entry. -/
def initial : State := {}

/-- The sheet with a line added, keeping the last `maxLines` lines. -/
def addLine (lines : List Line) (line : Line) : List Line :=
  let grown := lines ++ [line]
  grown.drop (grown.length - maxLines)

/-- The precision brought into `[1, maxPrecision]`. -/
def clampPrecision (n : Nat) : Nat := min (max n 1) maxPrecision

/-- The entry without its final `(` when it has one. -/
def dropOpenParen (s : String) : Option String :=
  match s.toList.reverse with
  | '(' :: rest => some (String.ofList rest.reverse)
  | _ => none

/-- The state after an action. Every action but the view's writes and an edit that is not
completed gives the focus to the entry. -/
def step (s : State) : Action → State
  | .resetAll => initial
  | .clearEntry => { s with entry := "", focusEntry := true }
  | .clearResults => { s with result := "", error := "", tokens := "", focusEntry := true }
  | .setError message => { s with error := message, focusEntry := true }
  | .setResult expression result =>
    let lines := addLine s.lines ⟨expression, result, s.precision⟩
    { s with error := "", result := result, lines := lines, focusEntry := true }
  | .setPrecision n => { s with precision := clampPrecision n, focusEntry := true }
  | .reuse index =>
    match s.lines[index]? with
    | some line => { s with entry := s.entry ++ "(" ++ line.result ++ ")", focusEntry := true }
    | none => { s with focusEntry := true }
  | .clearSheet => { s with lines := [], focusEntry := true }
  | .backspace => { s with entry := Worksheet.backspace s.entry, focusEntry := true }
  | .completeErase before =>
    if dropOpenParen before = some s.entry then
      { s with entry := Worksheet.backspace before, focusEntry := true }
    else s
  | .editEntry text => { s with entry := text }
  | .showTokens text => { s with tokens := text }
  | .setFocus value => { s with focusEntry := value }

/-- The states of a run of actions from `s`: `s` itself, then the state after each action. -/
def trace (s : State) : List Action → List State
  | [] => [s]
  | a :: rest => s :: trace (s.step a) rest

end State

end Calculator.Worksheet
