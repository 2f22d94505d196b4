import Ber.Proofs.Content
import Ber.Element

/-!
# Ber.Proofs.Encoding — values as they are written

An `Encoding` is a value together with every choice made in writing it: the octets of its identifier
and of its length, and for a container whether its end is given by its length or by a marker.

1. `Encoding.octets` are the octets written, `Encoding.element` is the value.
2. `Encoding.Valid` says which choices the format allows.
3. `Encoding.nesting` counts the levels of containers, and `Encoding.lengths` lists the lengths that
   a limit from outside applies to: those of the definite values that no other definite value holds.
-/

namespace Ber

/-! ## Elements of containers -/

/-- The octets of an element that may be the segment of an octet string. -/
def Element.segment? : Element → Option Octets
  | .primitive (.octetString octets) => some octets
  | _ => none

/-- What a container holds: anything, but an octet string is made up of octet strings. -/
def Form.Holds (elements : List Element) : Form → Prop
  | .octetString => ∀ element ∈ elements, element.segment?.isSome
  | _ => True

/-- The element that a container becomes. The segments of an octet string are joined. -/
def Form.element (elements : List Element) : Form → Element
  | .sequence => .sequence elements
  | .set => .set elements
  | .octetString => .primitive (.octetString (elements.filterMap Element.segment?).flatten)
  | .tagged identifier => .tagged identifier elements

/-! ## Encodings -/

/-- How the end of a container's content is given. -/
inductive Extent where
  /-- By length octets in front of the content. -/
  | definite (lengthOctets : Octets)
  /-- By the end-of-contents marker behind the content. -/
  | marked
deriving DecidableEq, Repr

namespace Extent

/-- Whether the end is given by a marker. -/
def isMarked : Extent → Bool
  | definite _ => false
  | marked => true

/-- The octets in front of the content. -/
def opening : Extent → Octets
  | definite lengthOctets => lengthOctets
  | marked => [0x80]

/-- The octets behind the content. -/
def closing : Extent → Octets
  | definite _ => []
  | marked => [0, 0]

/-- The length that is written for so much content. -/
def length (count : Nat) : Extent → Length
  | definite _ => .definite count
  | marked => .indefinite

end Extent

/-- A value as it is written. -/
inductive Encoding where
  /-- A value of application or private class, whose content is not looked into. -/
  | uninterpreted (identifier : Identifier) (lengthOctets content : Octets)
  /-- A value without parts, of definite length. -/
  | primitive (identifier : Identifier) (lengthOctets : Octets) (value : Primitive)
  /-- NULL of indefinite length, with what is skipped up to and including the marker. -/
  | skippedNull (identifier : Identifier) (skipped : Octets)
  /-- A tagged value that is not constructed. -/
  | taggedContent (identifier : Identifier) (lengthOctets content : Octets)
  /-- A container with the values in it. -/
  | container (form : Form) (identifier : Identifier) (extent : Extent) (values : List Encoding)

namespace Encoding

/-- The identifier and length octets of a value. -/
def header : Encoding → Octets
  | uninterpreted identifier lengthOctets _ => identifier.octets ++ lengthOctets
  | primitive identifier lengthOctets _ => identifier.octets ++ lengthOctets
  | skippedNull identifier _ => identifier.octets ++ [0x80]
  | taggedContent identifier lengthOctets _ => identifier.octets ++ lengthOctets
  | container _ identifier extent _ => identifier.octets ++ extent.opening

mutual

/-- The octets of a value. -/
def octets : Encoding → Octets
  | uninterpreted identifier lengthOctets content => identifier.octets ++ lengthOctets ++ content
  | primitive identifier lengthOctets value => identifier.octets ++ lengthOctets ++ value.content
  | skippedNull identifier skipped => identifier.octets ++ [0x80] ++ skipped
  | taggedContent identifier lengthOctets content => identifier.octets ++ lengthOctets ++ content
  | container _ identifier extent values =>
    identifier.octets ++ extent.opening ++ (octetsAll values ++ extent.closing)

/-- The octets of values in a row. -/
def octetsAll : List Encoding → Octets
  | [] => []
  | value :: values => octets value ++ octetsAll values

end

mutual

/-- The value that is written. -/
def element : Encoding → Element
  | uninterpreted identifier _ content => .uninterpreted identifier content
  | primitive _ _ value => .primitive value
  | skippedNull _ _ => .primitive .null
  | taggedContent identifier _ content => .taggedContent identifier content
  | container form _ _ values => form.element (elements values)

/-- The values that are written in a row. -/
def elements : List Encoding → List Element
  | [] => []
  | value :: values => element value :: elements values

end

mutual

/-- The number of containers that a value is nested in at most, itself included. A tagged value is
one, also if it is not constructed. -/
def nesting : Encoding → Nat
  | uninterpreted .. | primitive .. | skippedNull .. => 0
  | taggedContent .. => 1
  | container _ _ _ values => nestingAll values + 1

/-- The deepest nesting of values in a row. -/
def nestingAll : List Encoding → Nat
  | [] => 0
  | value :: values => max (nesting value) (nestingAll values)

end

mutual

/-- The lengths of the definite values that are not inside another definite value. -/
def lengths : Encoding → List Nat
  | uninterpreted _ _ content | taggedContent _ _ content => [content.length]
  | primitive _ _ value => [value.content.length]
  | skippedNull .. => []
  | container _ _ (.definite _) values => [(octetsAll values).length]
  | container _ _ .marked values => lengthsAll values

/-- The same for values in a row. -/
def lengthsAll : List Encoding → List Nat
  | [] => []
  | value :: values => lengths value ++ lengthsAll values

end

/-- No value in a row begins like the end-of-contents marker. -/
def Unmarked (values : List Encoding) : Prop := ∀ value ∈ values, value.header ≠ [0, 0]

mutual

/-- What the format asks of a value: identifier and length are written as they may be, the length
is that of the content, the identifier is one for this kind of value, an octet string holds octet
strings, and a value behind which the marker is looked for does not look like the marker. -/
def Valid : Encoding → Prop
  | uninterpreted identifier lengthOctets content =>
    identifier.Written ∧ Length.Written lengthOctets (.definite content.length) ∧
      (identifier.tagClass = .application ∨ identifier.tagClass = .privateUse)
  | primitive identifier lengthOctets value =>
    identifier.Written ∧ Length.Written lengthOctets (.definite value.content.length) ∧
      value.NamedBy identifier
  | skippedNull identifier skipped =>
    identifier.Written ∧ identifier.tag = .universal .null ∧ EndsAtMarker skipped
  | taggedContent identifier lengthOctets content =>
    identifier.Written ∧ Length.Written lengthOctets (.definite content.length) ∧
      identifier.tagClass = .context ∧ ¬ identifier.isConstructed
  | container form identifier extent values =>
    identifier.Written ∧
      Length.Written extent.opening (extent.length (octetsAll values).length) ∧
      form.NamedBy identifier extent.isMarked ∧
      (∀ named, form = .tagged named → named.isConstructed) ∧
      form.Holds (elements values) ∧ ValidAll values ∧ (extent.isMarked → Unmarked values)

/-- Every value in a row is valid. -/
def ValidAll : List Encoding → Prop
  | [] => True
  | value :: values => Valid value ∧ ValidAll values

end

end Encoding
end Ber
