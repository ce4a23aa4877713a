import Calculator.Gateway.Event
import Calculator.Evaluation.Machine
import Calculator.Token.Scan
/-!
The calculator's entry points for its host. An evaluation request carries an expression and a
precision: a blank expression is refused first, then a precision outside `[1, 10000]`; one
leading `=` is dropped; the text is scanned and evaluated, and the value printed. The channel
serves the one method `evaluateExpression`, whose arguments are a table with an expression and
an integer precision. Every failure has a code and a message, and each request keeps a log.
-/

namespace Calculator.Gateway

/-- Why a request failed. -/
inductive Failure where
  /-- The arguments are missing or malformed, or the precision is out of range. -/
  | invalidArguments (detail : String)
  /-- The expression is blank, or an argument is missing or of the wrong kind. -/
  | invalidInput
  /-- The channel serves no such method. -/
  | notImplemented (method : String)
  /-- The expression could not be scanned. -/
  | scan (e : ScanError)
  /-- The expression could not be evaluated. -/
  | eval (f : Fault)
  deriving DecidableEq, Repr

namespace Failure

/-- The stable code of a failure. -/
def code : Failure → String
  | invalidArguments _ => "INVALID_ARGUMENTS"
  | invalidInput => "INVALID_INPUT"
  | notImplemented _ => "NOT_IMPLEMENTED"
  | scan _ | eval _ => "EVALUATION_ERROR"

/-- The message of a failure. -/
def message : Failure → String
  | invalidArguments detail => "arguments invalides : " ++ detail
  | invalidInput => "expression vide ou précision absente"
  | notImplemented method => "méthode non implémentée : " ++ method
  | scan e => "erreur d’évaluation : " ++ e.message
  | eval f => "erreur d’évaluation : " ++ f.message

end Failure

/-- A request being served: it fails or answers, and keeps a log. -/
abbrev Session := ExceptT Failure (StateM (Array Event))

/-- Adds an event to the log. -/
def emit (e : Event) : Session Unit := modify (·.push e)

/-- The largest precision a request may ask for. -/
def maxPrecision : Nat := 10000

/-- The precision asked for, when it lies in `[1, maxPrecision]`. -/
def validPrecision (n : Int) : Except Failure Precision :=
  if h : 1 ≤ n ∧ n ≤ maxPrecision then
    .ok ⟨n.toNat, by omega, by simp only [maxPrecision] at h; simp only [Precision.digitsLimit]; omega⟩
  else .error (.invalidArguments ("précision " ++ toString n ++ " hors de [1, 10000]"))

/-- Whether a text holds only blanks. -/
def isBlank (s : String) : Bool := s.all Text.isBlank

/-- The text without one leading `=`. -/
def dropEquals (s : String) : String :=
  match s.toList with
  | '=' :: rest => String.ofList rest
  | _ => s

/-- Evaluates an expression at a precision and prints its value. -/
def evaluateExpression (expression : String) (precision : Nat) : Session String := do
  emit (.requested expression precision)
  if isBlank expression then throw .invalidInput
  let p ← match validPrecision precision with
    | .ok p => pure p
    | .error e => throw e
  match Token.scan (dropEquals expression) with
  | .error e =>
    emit (.failed expression e.message)
    throw (.scan e)
  | .ok tokens =>
    let (outcome, steps) := (Evaluation.evaluate tokens p).run.run #[]
    for s in steps do emit (.step s)
    match outcome with
    | .ok v => pure v.toText
    | .error f =>
      emit (.failed expression f.message)
      throw (.eval f)

/-- The arguments of a channel call, as far as the call reads them. -/
inductive ChannelArgs where
  /-- No arguments, or arguments that are not a table. -/
  | missing
  /-- A table, with its expression if that is a text and its precision if that is an integer
  of 64 bits. -/
  | table (expression : Option String) (precision : Option Int)
  deriving DecidableEq, Repr

/-- The method that evaluates an expression. -/
def evaluateMethod : String := "evaluateExpression"

/-- Serves a call on the channel. -/
def channel (method : String) (args : ChannelArgs) : Session String := do
  emit (.received method)
  if method ≠ evaluateMethod then throw (.notImplemented method)
  match args with
  | .missing => throw (.invalidArguments "arguments absents ou mal formés")
  | .table (some expression) (some n) =>
    if isBlank expression then throw .invalidInput
    let p ← match validPrecision n with
      | .ok p => pure p
      | .error e => throw e
    evaluateExpression expression p.digits
  | .table _ _ => throw .invalidInput

/-- The answer and the log of a request. -/
def Session.serve {α : Type} (s : Session α) : Except Failure α × Array Event := s.run.run #[]

end Calculator.Gateway
