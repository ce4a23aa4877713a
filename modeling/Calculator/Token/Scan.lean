import Calculator.Token.Basic
import Calculator.Text.Blank
import Calculator.Text.Letter
import Calculator.Fault
/-!
Cutting a text into tokens, in one pass over its characters with one open token, a number or
a name.
-/

namespace Calculator

namespace Token

/-- The token being read, its characters kept newest first. Numbers and names never share
one. -/
inductive Pending where
  | empty
  | number (reversed : List Char)
  | name (reversed : List Char)
  deriving DecidableEq, Repr

/-- The token of a complete name: `e` is the constant, `C` and `P` are operators. -/
def ofName (text : String) : Token :=
  if text = "e" then constant .e
  else if text = "C" then operator .choose
  else if text = "P" then operator .arrange
  else name text

namespace Pending

/-- The tokens read so far, newest first, with the pending token closed onto them. -/
def close : Pending → List Token → List Token
  | empty, done => done
  | number r, done => Token.number (String.ofList r.reverse) :: done
  | name r, done => ofName (String.ofList r.reverse) :: done

/-- Extends an open number by `c`, or closes the pending token and starts a number. -/
def pushNumber (c : Char) : Pending → List Token → Pending × List Token
  | number r, done => (number (c :: r), done)
  | p, done => (number [c], p.close done)

/-- Extends an open name by `c`, or closes the pending token and starts a name. -/
def pushName (c : Char) : Pending → List Token → Pending × List Token
  | name r, done => (name (c :: r), done)
  | p, done => (name [c], p.close done)

/-- Whether the pending token is a number with an ASCII digit (`5.` has one, `.` has none). -/
def hasDigit : Pending → Bool
  | number r => r.any Char.isDigit
  | _ => false

/-- Whether the pending token is a number that ends with an exponent mark. -/
def endsWithMark : Pending → Bool
  | number (c :: _) => c == 'E' || c == 'e'
  | _ => false

end Pending

/-- The token of a character that stands alone: a parenthesis, `π`, `√` or an operator
symbol. -/
def single? (c : Char) : Option Token :=
  if c = '(' then some openParen
  else if c = ')' then some closeParen
  else if c = 'π' then some (constant .pi)
  else if c = '√' then some (name "√")
  else (Operator.ofSymbol? c).map operator

/-- Whether the characters after an `e` make it an exponent mark: a digit, or a sign and a
digit, right after it. -/
def exponentFollows : List Char → Bool
  | c :: rest => c.isDigit || ((c == '+' || c == '-') && (rest.head?.map Char.isDigit).getD false)
  | [] => false

/-- Scans `cs` with the pending token `pending` and the tokens `done`, newest first. -/
def scanFrom : List Char → Pending → List Token → Except ScanError (List Token)
  | [], pending, done => .ok (pending.close done).reverse
  | c :: rest, pending, done =>
    if Text.isBlank c then scanFrom rest pending done
    else if c.isDigit || c == '.' then
      let (pending, done) := pending.pushNumber c done
      scanFrom rest pending done
    else if (c == 'E' || (c == 'e' && exponentFollows rest)) && pending.hasDigit then
      let (pending, done) := pending.pushNumber c done
      scanFrom rest pending done
    else if (c == '+' || c == '-') && pending.endsWithMark then
      let (pending, done) := pending.pushNumber c done
      scanFrom rest pending done
    else
      match single? c with
      | some t => scanFrom rest .empty (t :: pending.close done)
      | none =>
        if Text.isLetter c then
          let (pending, done) := pending.pushName c done
          scanFrom rest pending done
        else .error (.invalidCharacter c)

/-- The tokens of a text, or the first character that starts none. -/
def scan (s : String) : Except ScanError (List Token) := scanFrom s.toList .empty []

end Token

end Calculator
