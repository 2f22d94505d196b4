/-!
# Ber.Text — text that may be damaged

Decoding octets as text yields a list with an entry for each character and each defect found. Two
readings of such a list are wanted: the text if there is no defect at all (`strict?`), and a text
in which U+FFFD stands for every defect (`lossy`).
-/

namespace Ber

/-- Decoded text: characters, and `none` for every defect. -/
abbrev Text := List (Option Char)

/-- The character with the given code point, if there is one: surrogates and numbers above 10FFFF
are no characters. -/
def scalar? (codePoint : Nat) : Option Char :=
  if valid : codePoint.isValidChar then some (Char.ofNatAux codePoint valid) else none

/-- The character that stands for what could not be decoded, U+FFFD. -/
def replacementCharacter : Char := '\uFFFD'

namespace Text

/-- The text, with a replacement character for every defect. -/
def lossy (text : Text) : String := String.ofList (text.map (·.getD replacementCharacter))

/-- The text, unless there is a defect in it. -/
def strict? (text : Text) : Option String := (text.mapM id).map String.ofList

end Text
end Ber
