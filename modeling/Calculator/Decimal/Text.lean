import Calculator.Decimal.Basic
/-!
The written forms of a decimal.
-/

namespace Calculator

namespace Decimal

/-- The decimal digits of `n` with zeros in front, `width` digits in all when `n < 10 ^ width`.
Long numbers are split at a power of ten, so the work grows as that of a few large divisions. -/
def paddedDigits (n width : Nat) : List Char :=
  if width ≤ 18 then
    let ds := Nat.toDigits 10 n
    List.replicate (width - ds.length) '0' ++ ds
  else
    let low := width / 2
    paddedDigits (n / pow10 low) (width - low) ++ paddedDigits (n % pow10 low) low
termination_by width

/-- The decimal digits of `n`, most significant first; `0` for zero. -/
def digitChars (n : Nat) : List Char := paddedDigits n (digitLength n)

/-- The text of an exponent: `+` and the digits when it is zero or more, else `-` and them. -/
def exponentChars (e : Int) : List Char :=
  if 0 ≤ e then '+' :: digitChars e.toNat else '-' :: digitChars e.natAbs

/-- The digits `coeff` with `places` of them after a point, padded with zeros on the left
when there are not enough of them. -/
def plainChars (coeff : List Char) (places : Nat) : List Char :=
  if places = 0 then coeff
  else if places < coeff.length then
    coeff.take (coeff.length - places) ++ '.' :: coeff.drop (coeff.length - places)
  else '0' :: '.' :: (List.replicate (places - coeff.length) '0' ++ coeff)

/-- The digits `coeff` as one digit, a point before the others if any, and the exponent. -/
def scientificChars (coeff : List Char) (adjusted : Int) : List Char :=
  coeff.take 1 ++ (if 1 < coeff.length then '.' :: coeff.drop 1 else []) ++
    'E' :: exponentChars adjusted

/-- The printed form of a decimal, as characters. -/
def toChars (x : Decimal) : List Char :=
  let coeff := digitChars x.mantissa.natAbs
  let adjusted : Int := wrap64 ((coeff.length : Int) - 1 - x.scale)
  let sign := if x.mantissa < 0 then ['-'] else []
  if 0 ≤ x.scale ∧ -6 ≤ adjusted then sign ++ plainChars coeff x.scale.toNat
  else sign ++ scientificChars coeff adjusted

/-- The printed form of a decimal. -/
def toText (x : Decimal) : String := String.ofList x.toChars

/-- An integer in decimal digits, with a minus sign when it is negative. -/
def intText (n : Int) : String :=
  String.ofList ((if n < 0 then ['-'] else []) ++ digitChars n.natAbs)

instance : ToString Decimal := ⟨toText⟩

/-- The largest size of the exponent of a literal. -/
def literalExponentLimit : Nat := 999999999

/-- The value of a list of decimal digit characters, most significant first. Long lists are
split in two, the value of the front scaled by a power of ten. -/
def digitsValue (cs : List Char) : Nat :=
  if cs.length ≤ 18 then cs.foldl (fun n c => 10 * n + (c.toNat - '0'.toNat)) 0
  else
    let low := cs.length / 2
    digitsValue (cs.take (cs.length - low)) * pow10 low + digitsValue (cs.drop (cs.length - low))
termination_by cs.length
decreasing_by all_goals (simp only [List.length_take, List.length_drop]; omega)

/-- Splits off one leading sign: whether it was `-`, and the rest. -/
def takeSign (cs : List Char) : Bool × List Char :=
  match cs with
  | '-' :: rest => (true, rest)
  | '+' :: rest => (false, rest)
  | rest => (false, rest)

/-- Whether `c` marks the exponent of a literal. -/
def isExponentMark (c : Char) : Bool := c == 'e' || c == 'E'

/-- Reads the exponent of a literal: an optional sign and at least one digit, a 64-bit
integer whose size as a word is at most `literalExponentLimit`. The size of `int64Min` as a word
is itself, so that exponent passes too. -/
def readExponent? (cs : List Char) : Option Int :=
  let (negative, ds) := takeSign cs
  if ds.isEmpty || !ds.all Char.isDigit then none
  else
    let v : Int := if negative then -(digitsValue ds : Int) else digitsValue ds
    if v < int64Min ∨ int64Max < v then none
    else if (literalExponentLimit : Int) < wrappingAbs v then none
    else some v

/-- Reads the digits of a literal without its exponent, with or without a point, into the
mantissa and the number of digits after the point. -/
def readBody? (body : List Char) : Option (Nat × Nat) :=
  let whole := body.takeWhile (· != '.')
  let fraction := (body.dropWhile (· != '.')).drop 1
  if whole.isEmpty && fraction.isEmpty then none
  else if !whole.all Char.isDigit || !fraction.all Char.isDigit then none
  else some (digitsValue (whole ++ fraction), fraction.length)

/-- Reads a literal, or gives `none` when it is not one. -/
def ofChars? (cs : List Char) : Option Decimal :=
  let (negative, rest) := takeSign cs
  let body := rest.takeWhile (fun c => !isExponentMark c)
  let exponent? : Option Int :=
    match rest.dropWhile (fun c => !isExponentMark c) with
    | [] => some 0
    | _ :: expChars => readExponent? expChars
  match exponent?, readBody? body with
  | some e, some (m, places) =>
    some ⟨if negative then -(m : Int) else m, wrap64 ((places : Int) - e)⟩
  | _, _ => none

/-- Reads a literal, or gives `none` when it is not one. -/
def ofString? (s : String) : Option Decimal := ofChars? s.toList

end Decimal

end Calculator
