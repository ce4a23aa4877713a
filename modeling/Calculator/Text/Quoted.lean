import Calculator.Text.Invisible
/-!
Quoted text, as error messages show a name or a number: between double quotes, with a
backslash before a double quote or a backslash, the controls tab, line feed, carriage return
and null written `\t`, `\n`, `\r` and `\0`, and the other controls and the characters that
do not show by themselves (marks drawn on the character before them, and default-ignorable
characters such as the Hangul fillers) written `\u{h}` with the code point in lowercase
hexadecimal. Every other character stands as it is: the texts quoted are names made of letters
and numbers made of ASCII characters, and all other letters are printable.
-/

namespace Calculator.Text

/-- Whether `c` is a control character: below a space, or delete, or a C1 control. -/
def isControl (c : Char) : Bool := c.toNat < 0x20 || (0x7f ≤ c.toNat && c.toNat < 0xa0)

/-- The escape of a character by its code point, `\u{h}`. -/
def codeEscape (c : Char) : List Char :=
  '\\' :: 'u' :: '\x7b' :: (Nat.toDigits 16 c.toNat ++ ['\x7d'])

/-- The written form of one character inside quotes. -/
def escapeChar (c : Char) : List Char :=
  if c = '"' then ['\\', '"']
  else if c = '\\' then ['\\', '\\']
  else if c = '\t' then ['\\', 't']
  else if c = '\n' then ['\\', 'n']
  else if c = '\r' then ['\\', 'r']
  else if c = '\x00' then ['\\', '0']
  else if isControl c || isInvisible c then codeEscape c
  else [c]

/-- The quoted form of a text. -/
def quote (s : String) : String :=
  String.ofList ('"' :: (s.toList.flatMap escapeChar ++ ['"']))

end Calculator.Text
