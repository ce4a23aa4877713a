import Calculator.Evaluation.Step
/-!
The log of a request: when a request is received or an evaluation is asked for, when an
evaluation fails, and every step of the evaluator. Each event has a level, a message and named
fields; its origin tells the gateway's events from the evaluator's.
-/

namespace Calculator.Gateway

open Evaluation

/-- How much an event matters. -/
inductive Level where
  | trace
  | debug
  | warn
  deriving DecidableEq, Repr

/-- The value of a field of an event: a text, or an integer. -/
inductive Field where
  | text (s : String)
  | int (n : Int)
  deriving DecidableEq, Repr

/-- An event of the log of a request. -/
inductive Event where
  /-- A call on the channel, with its method. -/
  | received (method : String)
  /-- An evaluation asked for, with the expression as given and the precision. -/
  | requested (expression : String) (precision : Nat)
  /-- An evaluation that failed in the scanner or the evaluator, with the cause's message. -/
  | failed (expression : String) (cause : String)
  /-- A step of the evaluator. -/
  | step (s : Step)
  deriving DecidableEq, Repr

/-- The name of the channel that serves evaluations. -/
def channelName : String := "calculating_paper/calculation"

namespace Event

/-- The level of an event. -/
def level : Event → Level
  | received _ | requested _ _ => .debug
  | failed _ _ => .warn
  | step _ => .trace

/-- Whether the event comes from the evaluator rather than the gateway. -/
def fromEvaluator : Event → Bool
  | step _ => true
  | _ => false

/-- The message of an event. -/
def message : Event → String
  | received _ => "appel reçu"
  | requested _ _ => "évaluation demandée"
  | failed _ _ => "évaluation échouée"
  | step (.negation _) => "négation différée"
  | step (.operator _ _ _) => "application de l’opérateur"
  | step (.factorial _) => "factorielle"
  | step (.call _ _) => "appel de fonction"

/-- The named fields of an event, after its message, in order. -/
def fields : Event → List (String × Field)
  | received method => [("canal", .text channelName), ("methode", .text method)]
  | requested expression precision =>
    [("expression", .text expression), ("precision", .int precision)]
  | failed expression cause => [("expression", .text expression), ("erreur", .text cause)]
  | step (.negation x) => [("operande", .text x.toText)]
  | step (.operator op a b) =>
    [("operateur", .text op.symbol.toString), ("gauche", .text a.toText),
      ("droite", .text b.toText)]
  | step (.factorial n) => [("n", .int n)]
  | step (.call f x) => [("fonction", .text f.name), ("argument", .text x.toText)]

end Event

end Calculator.Gateway
