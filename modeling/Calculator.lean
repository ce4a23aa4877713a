import Calculator.Decimal.Arith
import Calculator.Decimal.Basic
import Calculator.Decimal.Round
import Calculator.Decimal.Text
import Calculator.Elementary.Arctan
import Calculator.Elementary.Exp
import Calculator.Elementary.Function
import Calculator.Elementary.Hyperbolic
import Calculator.Elementary.Log
import Calculator.Elementary.Pi
import Calculator.Elementary.Power
import Calculator.Elementary.Series
import Calculator.Elementary.Sqrt
import Calculator.Elementary.Trig
import Calculator.Evaluation.Machine
import Calculator.Evaluation.Step
import Calculator.Fault
import Calculator.Gateway.Basic
import Calculator.Gateway.Event
import Calculator.Proofs.Acceptance
import Calculator.Proofs.Digits
import Calculator.Proofs.Domains
import Calculator.Proofs.Faults
import Calculator.Proofs.Grammar
import Calculator.Proofs.IntegerReading
import Calculator.Proofs.Literals
import Calculator.Proofs.MachineSteps
import Calculator.Proofs.NearestRounding
import Calculator.Proofs.GatewayLog
import Calculator.Proofs.Outcomes
import Calculator.Proofs.PostOrderSteps
import Calculator.Proofs.Positivity
import Calculator.Proofs.QuotientRounding
import Calculator.Proofs.Readback
import Calculator.Proofs.Reentry
import Calculator.Proofs.Rescan
import Calculator.Proofs.Rounding
import Calculator.Proofs.SheetWindow
import Calculator.Proofs.SizeChecks
import Calculator.Proofs.SumRounding
import Calculator.Proofs.Soundness
import Calculator.Proofs.ValueInvariant
import Calculator.Proofs.WordScale
import Calculator.Text.Blank
import Calculator.Text.CodeRanges
import Calculator.Text.Invisible
import Calculator.Text.Letter
import Calculator.Text.Quoted
import Calculator.Token.Basic
import Calculator.Token.Scan
import Calculator.BinaryFloat
import Calculator.Word
import Calculator.Worksheet.Basic
import Calculator.Worksheet.Erase
import Calculator.Proofs.RoundingError
import Calculator.Proofs.WorkingArithmetic
import Calculator.Proofs.ValueOrder
import Calculator.Proofs.SeriesSteps
import Calculator.Proofs.ExpAccuracy
import Calculator.Proofs.LogSeriesAccuracy
import Calculator.Proofs.LogAccuracy
import Calculator.Proofs.PiAccuracy
import Calculator.Proofs.LogFaithful
import Calculator.Proofs.SinhSeries
import Calculator.Proofs.HyperbolicAccuracy
import Calculator.Proofs.SqrtAccuracy
import Calculator.Proofs.SignedSeries
import Calculator.Proofs.ArctanHalving
import Calculator.Proofs.ArctanAccuracy
import Calculator.Proofs.InverseTrigAccuracy
import Calculator.Proofs.ScanText
import Calculator.Proofs.AngleReduction
import Calculator.Proofs.TrigSeries
import Calculator.Proofs.TrigAccuracy
import Calculator.Proofs.IntegerTests
import Calculator.Proofs.SignSymmetry
import Calculator.Proofs.ExactPowers
import Calculator.Proofs.LoopSemantics
import Calculator.Proofs.LoopTermination
