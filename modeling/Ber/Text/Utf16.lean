import Ber.Octets
import Ber.Text

/-!
# Ber.Text.Utf16 — text of one or two 16 bit units a character

Each pair of octets is a unit, the more significant octet first. A high surrogate followed by a low
one makes up a character above FFFF. Every other surrogate is a defect by itself: what follows an
unpaired high surrogate is looked at afresh. An odd octet at the end is one defect more.
-/

namespace Ber.Text.Utf16

/-- The first unit of a pair. -/
def isHigh (unit : Nat) : Bool := 0xD800 ≤ unit && unit < 0xDC00

/-- The second unit of a pair. -/
def isLow (unit : Nat) : Bool := 0xDC00 ≤ unit && unit < 0xE000

/-- The code point that a pair of surrogates stands for. -/
def combine (high low : Nat) : Nat := 0x10000 + (high - 0xD800) * 0x400 + (low - 0xDC00)

/-- The units that octets write, without an odd octet at the end. -/
def units : Octets → List Nat
  | high :: low :: rest => (high.toNat * 256 + low.toNat) :: units rest
  | _ => []

/-- Decodes units. A unit that is no half of a pair is the code point itself. -/
def decodeUnits : List Nat → Text
  | [] => []
  | [unit] => [scalar? unit]
  | first :: second :: rest =>
    if isHigh first && isLow second then scalar? (combine first second) :: decodeUnits rest
    else scalar? first :: decodeUnits (second :: rest)

/-- Decodes octets as UTF-16, the more significant octet of a unit first. -/
def decode (octets : Octets) : Text :=
  decodeUnits (units octets) ++ if octets.length % 2 = 1 then [none] else []

end Ber.Text.Utf16
