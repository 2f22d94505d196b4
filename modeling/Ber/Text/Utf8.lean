import Ber.Octets
import Ber.Text

/-!
# Ber.Text.Utf8 — text of one to four octets a character

A character above 7F is written as a lead octet and one to three continuation octets. The lead octet
tells how many there are and which range the first of them has to be in, so that no character is
written longer than needed and no surrogate is written at all.

An octet that cannot start a character is a defect. If a character breaks off, what has been read of
it is one defect, and the octet at which it breaks off is looked at afresh.
-/

namespace Ber.Text.Utf8

/-- A character of which some octets are still to come: the range for the next one, how many more
come after that, and the bits read so far. -/
structure Unfinished where
  low : UInt8
  high : UInt8
  more : Nat
  bits : Nat
deriving DecidableEq, Repr

/-- What a lead octet begins, if it is one. -/
def Unfinished.ofLead? (lead : UInt8) : Option Unfinished :=
  if 0xC2 ≤ lead ∧ lead ≤ 0xDF then some ⟨0x80, 0xBF, 0, lead.toNat - 0xC0⟩
  else if lead = 0xE0 then some ⟨0xA0, 0xBF, 1, 0⟩
  else if lead = 0xED then some ⟨0x80, 0x9F, 1, 13⟩
  else if 0xE1 ≤ lead ∧ lead ≤ 0xEF then some ⟨0x80, 0xBF, 1, lead.toNat - 0xE0⟩
  else if lead = 0xF0 then some ⟨0x90, 0xBF, 2, 0⟩
  else if 0xF1 ≤ lead ∧ lead ≤ 0xF3 then some ⟨0x80, 0xBF, 2, lead.toNat - 0xF0⟩
  else if lead = 0xF4 then some ⟨0x80, 0x8F, 2, 4⟩
  else none

/-- What an octet that may start a character yields, and what it leaves unfinished. -/
def start (octet : UInt8) : Text × Option Unfinished :=
  if octet < 0x80 then ([some (Char.ofNat octet.toNat)], none)
  else
    match Unfinished.ofLead? octet with
    | some unfinished => ([], some unfinished)
    | none => ([none], none)

/-- What the next octet yields, given what is unfinished. -/
def step : Option Unfinished → UInt8 → Text × Option Unfinished
  | none, octet => start octet
  | some unfinished, octet =>
    if unfinished.low ≤ octet ∧ octet ≤ unfinished.high then
      let bits := unfinished.bits * 64 + octet.toNat % 64
      match unfinished.more with
      | 0 => ([scalar? bits], none)
      | more + 1 => ([], some ⟨0x80, 0xBF, more, bits⟩)
    else
      let (text, unfinished) := start octet
      (none :: text, unfinished)

/-- Decodes octets in the midst of a character. The text so far comes latest first. -/
def decodeAfter (text : Text) : Option Unfinished → Octets → Text
  | none, [] => text.reverse
  | some _, [] => (none :: text).reverse
  | unfinished, octet :: rest =>
    let (found, unfinished) := step unfinished octet
    decodeAfter (found.reverse ++ text) unfinished rest

/-- Decodes octets as UTF-8. -/
def decode (octets : Octets) : Text := decodeAfter [] none octets

end Ber.Text.Utf8
