import Ber.Octets

/-!
# Ber.Value.BitString — strings of bits

Bits are stored eight to an octet, the first one in the most significant bit. The last octet may
have up to seven unused bits, so a string without octets has none. The type holds these rules, and
`ofParts?` and `ofContent` are the ways into it.
-/

namespace Ber

/-- A BIT STRING. -/
structure BitString where
  /-- How many of the last octet's bits are unused. -/
  unused : Nat
  /-- The octets that hold the bits. -/
  octets : Octets
  unused_lt : unused < 8
  unused_eq_zero : octets = [] → unused = 0
deriving DecidableEq, Repr

namespace BitString

/-- The bit string with so many unused bits in the last of the octets, if there can be one. -/
def ofParts? (unused : UInt8) (octets : Octets) : Option BitString :=
  if valid : unused.toNat < 8 ∧ (octets = [] → unused.toNat = 0) then
    some ⟨unused.toNat, octets, valid.1, valid.2⟩
  else none

/-- Reads the content octets of a bit string: the number of unused bits, then the bits. The error
tells what is wrong with them. -/
def ofContent : Octets → Except String BitString
  | [] => .error "empty bit string"
  | unused :: octets =>
    match ofParts? unused octets with
    | some bitString => .ok bitString
    | none => .error "invalid unused bits in bit string"

/-- The content octets of a bit string. -/
def content (bitString : BitString) : Octets :=
  UInt8.ofNat bitString.unused :: bitString.octets

/-- The number of bits. -/
def length (bitString : BitString) : Nat := bitString.octets.length * 8 - bitString.unused

/-- The bit at an index. Unused bits and those beyond the end are false. -/
def bit (bitString : BitString) (index : Nat) : Bool :=
  match bitString.octets[index / 8]? with
  | none => false
  | some octet =>
    let weight := 7 - index % 8
    if index / 8 + 1 = bitString.octets.length ∧ weight < bitString.unused then false
    else octet.toNat.testBit weight

end BitString
end Ber
