/-!
# Ber.Octets — octet strings and the numbers they write

Everything this library reads is a list of octets. This module holds what octets mean before any
tag or length is known:

1. their hexadecimal text (`Octets.hex`);
2. the unsigned number they write in base 256 (`Octets.bigEndian`);
3. one step of reading a number in base 128, seven bits an octet, that fits 32 bits
   (`sevenBits?`), which tag numbers and object identifiers share;
4. reading them in pieces of at most a wanted size (`Octets.pieces`).
-/

namespace Ber

/-- A string of octets. -/
abbrev Octets := List UInt8

namespace Octets

/-- The lower case hexadecimal digits of an octet, the high one first. -/
def hexDigits (octet : UInt8) : List Char :=
  [Nat.digitChar (octet.toNat / 16), Nat.digitChar (octet.toNat % 16)]

/-- Two hexadecimal digits for each octet, with nothing between them. -/
def hex (octets : Octets) : String :=
  String.ofList (octets.flatMap hexDigits)

/-- The number written in base 256, the most significant octet first. -/
def bigEndian (octets : Octets) : Nat :=
  octets.foldl (fun number octet => number * 256 + octet.toNat) 0

/-- The octets got by reading up to each of the given sizes in turn. Once nothing is left, every
further piece is empty. -/
def pieces : List Nat → Octets → List Octets
  | [], _ => []
  | size :: sizes, octets => octets.take size :: pieces sizes (octets.drop size)

end Octets

/-- Appends the low seven bits of an octet to a number. There is no result if the number has grown
so large that seven more bits cannot fit 32 bits. -/
def sevenBits? (number : Nat) (octet : UInt8) : Option Nat :=
  if number * 128 < 0x100000000 then some (number * 128 + octet.toNat % 128) else none

end Ber
