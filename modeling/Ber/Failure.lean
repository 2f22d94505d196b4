/-!
# Ber.Failure — why and where decoding stops

A failure has a cause and the position at which it was found. Positions count the octets that the
reader has delivered, so a failure found right after reading an octet stands behind that octet.
-/

namespace Ber

/-- The causes of a failure. -/
inductive Cause where
  /-- The data ended where more octets were required. -/
  | truncated
  /-- The length octets announce more than four octets or a length of more than 31 bits. -/
  | malformedLength
  /-- A definite length is not below the limit. -/
  | outOfBounds
  /-- An indefinite length stands on a type that does not allow one. -/
  | unsupportedIndefiniteForm
  /-- The tag number does not fit 32 bits or five octets. -/
  | malformedTag
  /-- A container is nested deeper than allowed. -/
  | nestingTooDeep
  /-- The content octets do not make up a value of the type. -/
  | malformedContent (reason : String)
  /-- The reader failed. -/
  | unreadable (reason : String)
deriving DecidableEq, Repr

/-- The wording of a cause. -/
def Cause.message : Cause → String
  | .truncated => "unexpected end of data"
  | .malformedLength => "malformed length"
  | .outOfBounds => "length out of bounds"
  | .unsupportedIndefiniteForm => "indefinite length not supported for type"
  | .malformedTag => "tag number too large"
  | .nestingTooDeep => "containers nested too deeply"
  | .malformedContent reason => "malformed content: " ++ reason
  | .unreadable reason => "read error: " ++ reason

/-- The failure beneath a cause: a reader that failed has a reason of its own. -/
def Cause.underlying? : Cause → Option String
  | .unreadable reason => some reason
  | _ => none

/-- A failure: its cause, and how many octets the reader had delivered. -/
structure Failure where
  cause : Cause
  position : Nat
deriving DecidableEq, Repr

/-- The wording of a failure: that of its cause, and the position. -/
def Failure.message (failure : Failure) : String :=
  failure.cause.message ++ " at position " ++ toString failure.position

/-- Whether the data ended too early. -/
def Failure.isTruncated (failure : Failure) : Bool :=
  failure.cause == .truncated

end Ber
