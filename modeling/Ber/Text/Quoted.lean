import Ber.Text.Extending
import Ber.Text.Invisible

/-!
# Ber.Text.Quoted — text between double quotes, every character of it to be seen

A quoted text can be read for what it holds: quotes and backslashes are escaped, the common control
characters are written by a letter, and any other character that would not stand out by itself is
written by its code point.
-/

namespace Ber.Text

/-- The least number of lower case hexadecimal digits that write a code point. -/
def codePointDigits (char : Char) : List Char := Nat.toDigits 16 char.toNat

/-- How a character is written inside a quoted text. -/
def escape (char : Char) : List Char :=
  match char with
  | '\x00' => ['\\', '0']
  | '\t' => ['\\', 't']
  | '\r' => ['\\', 'r']
  | '\n' => ['\\', 'n']
  | '\\' => ['\\', '\\']
  | '"' => ['\\', '"']
  | char =>
    if isExtending char || isInvisible char then
      ['\\', 'u', '\x7b'] ++ codePointDigits char ++ ['\x7d']
    else [char]

/-- A text between double quotes. -/
def quoted (text : String) : String :=
  String.ofList (['"'] ++ text.toList.flatMap escape ++ ['"'])

end Ber.Text
