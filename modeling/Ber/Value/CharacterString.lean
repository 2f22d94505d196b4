import Ber.Tag
import Ber.Text.Quoted
import Ber.Text.Utf16
import Ber.Text.Utf32
import Ber.Text.Utf8

/-!
# Ber.Value.CharacterString — strings of characters, and times

A restricted character string is told by its character set. The content octets are kept as received
and not checked against the set. Two sets have a coding of their own, UTF-16 and UTF-32; the content
of the others, and of times, is read as UTF-8.
-/

namespace Ber

/-- The character sets of the restricted character string types. -/
inductive CharacterSet where
  | utf8
  | numeric
  | printable
  | teletex
  | ia5
  | visible
  | general
  | universal
  | bmp
deriving DecidableEq, Repr

namespace CharacterSet

/-- The type of the strings over a character set. -/
def type : CharacterSet → UniversalType
  | utf8 => .utf8String
  | numeric => .numericString
  | printable => .printableString
  | teletex => .teletexString
  | ia5 => .ia5String
  | visible => .visibleString
  | general => .generalString
  | universal => .universalString
  | bmp => .bmpString

/-- The name that a string over a character set has as a term. -/
def termName : CharacterSet → String
  | utf8 => "Utf8String"
  | numeric => "NumericString"
  | printable => "PrintableString"
  | teletex => "TeletexString"
  | ia5 => "Ia5String"
  | visible => "VisibleString"
  | general => "GeneralString"
  | universal => "UniversalString"
  | bmp => "BmpString"

/-- Every character set. -/
def all : List CharacterSet :=
  [utf8, numeric, printable, teletex, ia5, visible, general, universal, bmp]

end CharacterSet

/-- A restricted character string, by its character set and content octets. -/
structure CharacterString where
  characters : CharacterSet
  content : Octets
deriving DecidableEq, Repr

namespace CharacterString

/-- The decoded content. -/
def decoded (string : CharacterString) : Text :=
  match string.characters with
  | .universal => Text.Utf32.decode string.content
  | .bmp => Text.Utf16.decode string.content
  | _ => Text.Utf8.decode string.content

/-- The text of a string as a term. Here every content is read as UTF-8. -/
def termText (string : CharacterString) : String :=
  string.characters.termName ++ "(" ++
    Text.quoted (Text.Utf8.decode string.content).lossy ++ ")"

end CharacterString

/-- The two ways to write a time. -/
inductive TimeForm where
  | utc
  | generalized
deriving DecidableEq, Repr

/-- The type of the times of a form. -/
def TimeForm.type : TimeForm → UniversalType
  | .utc => .utcTime
  | .generalized => .generalizedTime

/-- A time, by its form and content octets. -/
structure Time where
  form : TimeForm
  content : Octets
deriving DecidableEq, Repr

/-- The decoded content. -/
def Time.decoded (time : Time) : Text := Text.Utf8.decode time.content

end Ber
