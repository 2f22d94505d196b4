import Ber.Source
import Ber.Tag

/-!
# Ber.Header.Identifier — the octets that name a type

The first identifier octet holds the class (two bits), the constructed bit and, if it is below 31,
the tag number (five bits). Otherwise the number follows in base 128, up to the first octet whose
high bit is clear. Up to five octets are read for a number of at most 32 bits.

An identifier keeps its octets as read, so two spellings of one tag remain apart.
-/

namespace Ber

/-- The identifier octets of a value, with the tag number they write. -/
structure Identifier where
  /-- The first octet. -/
  first : UInt8
  /-- The octets of a long tag number. -/
  following : Octets
  /-- The tag number. -/
  number : UInt32
deriving DecidableEq, Repr

namespace Identifier

/-- The identifier octets as read. -/
def octets (identifier : Identifier) : Octets := identifier.first :: identifier.following

/-- The class of the tag, from the first octet. -/
def tagClass (identifier : Identifier) : TagClass := .ofFirst identifier.first

/-- The tag of the value. -/
def tag (identifier : Identifier) : Tag := ⟨identifier.tagClass, identifier.number⟩

/-- Whether the constructed bit is set. -/
def isConstructed (identifier : Identifier) : Bool := identifier.first &&& 0x20 != 0

/-! ## Text -/

/-- The text of an identifier: its tag, and whether it is constructed. -/
def text (identifier : Identifier) : String :=
  if identifier.isConstructed then identifier.tag.text ++ " (constructed)" else identifier.tag.text

/-- The text of an identifier when it is shown as a term, with its octets in decimal. -/
def termText (identifier : Identifier) : String :=
  "Ident(" ++ identifier.text ++ " - [" ++
    ", ".intercalate (identifier.octets.map fun octet => toString octet.toNat) ++ "])"

/-! ## Reading -/

/-- Takes the octets of a long tag number, of which so many more are allowed, and appends their low
bits to the number so far. -/
def longNumber : (room : Nat) → (number : Nat) → Taking (Octets × Nat)
  | 0, _ => Source.fail .malformedTag
  | room + 1, number => do
    let octet ← Source.octet
    match sevenBits? number octet with
    | none => Source.fail .malformedTag
    | some number =>
      if octet < 0x80 then return ([octet], number)
      else
        let (following, number) ← longNumber room number
        return (octet :: following, number)

/-- The most octets that the number of a tag may take. -/
def maxNumberOctets : Nat := 5

/-- Takes what follows the first octet of an identifier. -/
def after (first : UInt8) : Taking Identifier :=
  if first &&& 0x1f < 0x1f then return ⟨first, [], (first &&& 0x1f).toUInt32⟩
  else do
    let (following, number) ← longNumber maxNumberOctets 0
    return ⟨first, following, UInt32.ofNat number⟩

/-- Takes an identifier, or none at the end of the innermost region. -/
def take? : Taking (Option Identifier) := do
  match ← Source.octet? with
  | none => return none
  | some first => return some (← after first)

end Identifier
end Ber
