import Ber.Octets

/-!
# Ber.Value.Boolean — truth values

The content is kept as received. It should be one octet, but that is not insisted on.
-/

namespace Ber

/-- A BOOLEAN, by its content octets. -/
structure Boolean where
  content : Octets
deriving DecidableEq, Repr

namespace Boolean

/-- A boolean is true if any of its octets is not zero. -/
def value (boolean : Boolean) : Bool := boolean.content.any (· != 0)

/-- The content octets of a truth value. -/
def ofBool (value : Bool) : Boolean := ⟨[if value then 0xFF else 0x00]⟩

end Boolean
end Ber
