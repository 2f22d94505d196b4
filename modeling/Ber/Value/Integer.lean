import Ber.Octets

/-!
# Ber.Value.Integer — integers in two's complement

The content octets write an integer of any size in two's complement, the most significant octet
first. Leading octets that only repeat the sign are tolerated. The conversions into words of 64 bits
drop such octets, refuse what is still too long, and shift in the rest.
-/

namespace Ber

/-- An INTEGER or ENUMERATED, by its content octets. -/
structure Integer where
  content : Octets
deriving DecidableEq, Repr

namespace Integer

/-- Whether the sign bit is set. An integer without octets is not negative. -/
def isNegative (integer : Integer) : Bool :=
  match integer.content with
  | [] => false
  | first :: _ => 0x80 ≤ first

/-- Drops leading octets that only repeat the sign bit of the octet after them. -/
def dropSignOctets : Octets → Octets
  | first :: second :: rest =>
    if (first = 0x00 ∧ second < 0x80) ∨ (first = 0xFF ∧ 0x80 ≤ second) then
      dropSignOctets (second :: rest)
    else first :: second :: rest
  | octets => octets

/-- Drops the zero octet that only makes room for the sign bit. -/
def dropZeroOctet : Octets → Octets
  | 0 :: second :: rest => second :: rest
  | octets => octets

/-- The integer as a signed word, if it has octets and fits. -/
def toInt64? (integer : Integer) : Option Int64 :=
  let octets := dropSignOctets integer.content
  if octets = [] ∨ 8 < octets.length then none
  else
    some <| octets.foldl (fun word octet => word <<< 8 ||| octet.toUInt64.toInt64)
      (if integer.isNegative then -1 else 0)

/-- The integer as an unsigned word, if it has octets, is not negative and fits. -/
def toUInt64? (integer : Integer) : Option UInt64 :=
  let octets := dropZeroOctet (dropSignOctets integer.content)
  if integer.isNegative ∨ octets = [] ∨ 8 < octets.length then none
  else some <| octets.foldl (fun word octet => word <<< 8 ||| octet.toUInt64) 0

end Integer
end Ber
