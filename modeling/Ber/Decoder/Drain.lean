import Ber.Decoder
import Ber.Element

/-!
# Ber.Decoder.Drain — reading values as a whole

Draining takes the values of a region one after the other and reads everything inside them, so that
a list of elements remains. The content of a segmented octet string is joined: every segment has to
be an octet string, which may be segmented again.

Taking a value spends at least two octets, so the recursion is bounded by the number of octets left.
The bound is an argument of `elementsWithin` and `joinedWithin`; `drain`, `joined`, `contents` and
`element` set it from the source.
-/

namespace Ber.Decoder

/-! ## Segmented octet strings -/

/-- The cause of the failure when a segment of an octet string is something else. -/
def foreignSegment : Cause := .malformedContent "octet string segment is not an octet string"

/-- Joins the segments of the innermost region behind the pieces taken so far, which come latest
first. A segment that is no octet string is refused at the position where it starts. -/
def joinedWithin : (bound : Nat) → (scope : Scope) → (pieces : List Octets) → Decoding Octets
  | 0, _, _ => Source.fail (α := Octets) .truncated
  | bound + 1, scope, pieces => do
    let start ← position
    match ← next scope with
    | none => return pieces.reverse.flatten
    | some (.primitive (.octetString octets)) => joinedWithin bound scope (octets :: pieces)
    | some (.container ⟨.octetString, inner, _⟩) =>
      let octets ← leaving (joinedWithin bound inner [])
      joinedWithin bound scope (octets :: pieces)
    | some (.container _) => leaving (throw ⟨foreignSegment, start⟩)
    | some _ => throw ⟨foreignSegment, start⟩

/-! ## Elements -/

/-- Reads all that remains of the container whose region is the innermost one, given how to drain
values and how to join segments. The content of a tagged value that is not constructed is taken as
it is. -/
def contentsWith (drain : Scope → Decoding (List Element)) (join : Scope → Decoding Octets)
    (container : Container) : Decoding Element :=
  match container.form with
  | .sequence => return .sequence (← drain container.scope)
  | .set => return .set (← drain container.scope)
  | .octetString => return .primitive (.octetString (← join container.scope))
  | .tagged identifier =>
    if identifier.isConstructed then return .tagged identifier (← drain container.scope)
    else return .taggedContent identifier (← Source.remainder)

/-- Reads a value as a whole, given how to read containers. A container is left afterwards. -/
def elementWith (contents : Container → Decoding Element) : Item → Decoding Element
  | .uninterpreted identifier content => return .uninterpreted identifier content
  | .primitive value => return .primitive value
  | .container container => leaving (contents container)

/-- Takes the values of the innermost region as a whole behind those taken so far, which come
latest first. -/
def elementsWithin : (bound : Nat) → (scope : Scope) → (taken : List Element) →
    Decoding (List Element)
  | 0, _, _ => Source.fail (α := List Element) .truncated
  | bound + 1, scope, taken => do
    match ← next scope with
    | none =>
      remark (.drained taken.length (← position))
      return taken.reverse
    | some item =>
      let element ← elementWith
        (contentsWith (elementsWithin bound · []) (joinedWithin bound · [])) item
      elementsWithin bound scope (element :: taken)

/-! ## Without a bound -/

/-- A bound that reading the values left cannot reach. -/
def bound : Decoding Nat := return (← get).source.left + 1

/-- Takes all values that remain in the innermost region. -/
def drain (scope : Scope) : Decoding (List Element) := do
  elementsWithin (← bound) scope []

/-- Takes all segments that remain in the innermost region and joins them. -/
def joined (scope : Scope) : Decoding Octets := do
  joinedWithin (← bound) scope []

/-- Reads all that remains of the container whose region is the innermost one. -/
def contents (container : Container) : Decoding Element := contentsWith drain joined container

/-- Reads a value as a whole. A container is left afterwards. -/
def element (item : Item) : Decoding Element := elementWith contents item

end Ber.Decoder
