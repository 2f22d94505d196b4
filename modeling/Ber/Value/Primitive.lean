import Ber.Header.Identifier
import Ber.Value.BitString
import Ber.Value.Boolean
import Ber.Value.CharacterString
import Ber.Value.Integer
import Ber.Value.ObjectIdentifier

/-!
# Ber.Value.Primitive — values without parts

`Primitive.ofContent` reads a value from its identifier and its content octets. Only a bit string
and NULL ask something of the content. A value of a tag that is not listed here is kept with its
identifier octets.
-/

namespace Ber

/-- A value that has no values inside. -/
inductive Primitive where
  | boolean (value : Boolean)
  | integer (value : Integer)
  | enumerated (value : Integer)
  | bitString (value : BitString)
  | octetString (octets : Octets)
  | null
  | objectIdentifier (value : ObjectIdentifier)
  | characterString (value : CharacterString)
  | time (value : Time)
  | unknown (identifier : Identifier) (content : Octets)
deriving DecidableEq, Repr

namespace Primitive

/-- The tag of a value. -/
def tag : Primitive → Tag
  | boolean _ => .universal .boolean
  | integer _ => .universal .integer
  | enumerated _ => .universal .enumerated
  | bitString _ => .universal .bitString
  | octetString _ => .universal .octetString
  | null => .universal .null
  | objectIdentifier _ => .universal .objectIdentifier
  | characterString value => .universal value.characters.type
  | time value => .universal value.form.type
  | unknown identifier _ => identifier.tag

/-- Reads a value. The error tells what is wrong with the content. -/
def ofContent (identifier : Identifier) (content : Octets) : Except String Primitive :=
  match identifier.tag.universalType? with
  | some .boolean => .ok (.boolean ⟨content⟩)
  | some .integer => .ok (.integer ⟨content⟩)
  | some .enumerated => .ok (.enumerated ⟨content⟩)
  | some .bitString => (BitString.ofContent content).map .bitString
  | some .octetString => .ok (.octetString content)
  | some .null => if content = [] then .ok .null else .error "NULL with content"
  | some .objectIdentifier => .ok (.objectIdentifier ⟨content⟩)
  | some .utf8String => .ok (.characterString ⟨.utf8, content⟩)
  | some .numericString => .ok (.characterString ⟨.numeric, content⟩)
  | some .printableString => .ok (.characterString ⟨.printable, content⟩)
  | some .teletexString => .ok (.characterString ⟨.teletex, content⟩)
  | some .ia5String => .ok (.characterString ⟨.ia5, content⟩)
  | some .visibleString => .ok (.characterString ⟨.visible, content⟩)
  | some .generalString => .ok (.characterString ⟨.general, content⟩)
  | some .universalString => .ok (.characterString ⟨.universal, content⟩)
  | some .bmpString => .ok (.characterString ⟨.bmp, content⟩)
  | some .utcTime => .ok (.time ⟨.utc, content⟩)
  | some .generalizedTime => .ok (.time ⟨.generalized, content⟩)
  | some .endOfContents | some .sequence | some .set | none => .ok (.unknown identifier content)

end Primitive

/-- The text of an octet string as a term, in hexadecimal. -/
def Octets.termText (octets : Octets) : String := "OctetString(" ++ octets.hex ++ ")"

end Ber
