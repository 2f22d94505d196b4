import Ber.Octets
import Ber.Text

/-!
# Ber.Text.Utf32 — text of four octets a character

Each group of four octets is a code point, the most significant octet first. A group that is no
character, and an incomplete group at the end, is a defect.
-/

namespace Ber.Text.Utf32

/-- Decodes octets as UTF-32, the most significant octet of a character first. -/
def decode : Octets → Text
  | [] => []
  | a :: b :: c :: d :: rest => scalar? (Octets.bigEndian [a, b, c, d]) :: decode rest
  | _ => [none]

end Ber.Text.Utf32
