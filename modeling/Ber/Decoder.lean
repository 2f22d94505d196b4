import Ber.Container
import Ber.Journal

/-!
# Ber.Decoder — one value at a time

A decoder is a source together with the journal of remarks. `next` takes the next value of the
innermost region:

1. The limit is lowered to the number of octets the region has left, if that is known.
2. The first identifier octet is the only place where the end-of-contents marker is looked for.
3. Identifier and length decide what becomes of the content (`Content`): it is kept or decoded as a
   whole, skipped, entered as a container, or refused.

Entering a container opens its region. It stays open until `leave`, whether or not all of its
content has been read by then.
-/

namespace Ber

/-- A source with the remarks made so far, the latest first. -/
structure Decoder where
  source : Source
  journal : List Remark := []
deriving DecidableEq, Repr

/-- An action on a decoder that may fail. -/
abbrev Decoding (α : Type) := Action Decoder α

namespace Decoder

/-- Does on the source what a `Taking` says. -/
def taking {α : Type} (action : Taking α) : Decoding α :=
  Action.on Decoder.source (fun source decoder => { decoder with source }) action

instance : MonadLift Taking Decoding := ⟨taking⟩

/-- The number of octets the reader has delivered. -/
def position : Decoding Nat := return (← get).source.position

/-- Makes a remark. -/
def remark (remark : Remark) : Decoding Unit :=
  modify fun decoder => { decoder with journal := remark :: decoder.journal }

/-- Gives up the innermost region. -/
def leave (decoder : Decoder) : Decoder := { decoder with source := decoder.source.leave }

/-- Gives up the innermost region after an action, also if it fails. -/
def leaving {α : Type} (action : Decoding α) : Decoding α := Action.afterwards leave action

end Decoder

/-! ## What becomes of the content -/

/-- What becomes of the content of a value. -/
inductive Content where
  /-- So many octets are kept without being looked into. -/
  | kept (octets : Nat)
  /-- So many octets are decoded as a value without parts. -/
  | decoded (octets : Nat)
  /-- It is skipped up to the end-of-contents marker. -/
  | skipped
  /-- It is entered as a container. -/
  | entered (form : Form) (region : Region)
  /-- The value is not allowed. -/
  | refused
deriving DecidableEq, Repr

namespace Content

/-- What becomes of content of definite length. A constructed octet string has segments; apart from
that the constructed bit does not matter. -/
def ofDefinite (identifier : Identifier) (octets : Nat) : Content :=
  match identifier.tagClass with
  | .application | .privateUse => kept octets
  | .context => entered (.tagged identifier) (.definite octets)
  | .universal =>
    match identifier.tag.universalType? with
    | some .sequence => entered .sequence (.definite octets)
    | some .set => entered .set (.definite octets)
    | some .octetString =>
      if identifier.isConstructed then entered .octetString (.definite octets) else decoded octets
    | _ => decoded octets

/-- What becomes of content of indefinite length. The constructed bit does not matter. -/
def ofIndefinite (identifier : Identifier) : Content :=
  match identifier.tagClass with
  | .context | .privateUse => entered (.tagged identifier) (.marked {})
  | .application => refused
  | .universal =>
    match identifier.tag.universalType? with
    | some .null => skipped
    | some .octetString => entered .octetString (.marked {})
    | some .sequence => entered .sequence (.marked {})
    | some .set => entered .set (.marked {})
    | _ => refused

/-- What becomes of the content of a value. -/
def of (identifier : Identifier) : Length → Content
  | .definite octets => ofDefinite identifier octets
  | .indefinite => ofIndefinite identifier

end Content

namespace Scope

/-- The scope inside a region: one level deeper. The length of a definite region is the limit for
everything in it; a marked region passes the limit on. -/
def inside (scope : Scope) : Region → Scope
  | .definite octets => { scope with limit := octets, depth := scope.depth + 1 }
  | .marked _ => { scope with depth := scope.depth + 1 }

/-- Lowers the limit to the octets available, if their number is known. -/
def lower (scope : Scope) : Option Nat → Scope
  | some available => { scope with limit := min scope.limit available }
  | none => scope

end Scope

namespace Decoder

/-! ## The next value -/

/-- Enters a container, unless that is too deep. -/
def enter (scope : Scope) (form : Form) (region : Region) : Decoding Container := do
  if scope.maxDepth ≤ scope.depth then Source.fail (α := Unit) .nestingTooDeep
  modify fun decoder => { decoder with source := decoder.source.enter region }
  return ⟨form, scope.inside region, region.isMarked⟩

/-- Decodes a value without parts from its identifier and content. -/
def decode (identifier : Identifier) (content : Octets) : Decoding Primitive :=
  match Primitive.ofContent identifier content with
  | .error reason => Source.fail (α := Primitive) (.malformedContent reason)
  | .ok value => do
    if let .unknown identifier content := value then
      remark (.unknownTag identifier content.length)
    return value

/-- Reads the content of a value. -/
def item (scope : Scope) (identifier : Identifier) : Content → Decoding Item
  | .kept octets => return .uninterpreted identifier (← Source.octets octets)
  | .decoded octets => return .primitive (← decode identifier (← Source.octets octets))
  | .skipped => do
    Source.within (.marked {}) Source.skipToEnd
    remark (.indefiniteNull (← position))
    return .primitive .null
  | .entered form region => return .container (← enter scope form region)
  | .refused => Source.fail (α := Item) .unsupportedIndefiniteForm

/-- Takes the next value of the innermost region, or none at its end. -/
def next (scope : Scope) : Decoding (Option Item) := do
  let scope := scope.lower (← get).source.available
  match ← Source.firstOctet? with
  | none =>
    remark (.endOfContent (← position))
    return none
  | some first =>
    let identifier ← Identifier.after first
    let length ← Length.take scope.limit
    remark (.header identifier length (← position))
    return some (← item scope identifier (.of identifier length))

end Decoder
end Ber
