import Ber.Value.Primitive

/-!
# Ber.Container — values that hold values

Decoding goes on inside a `Scope`: the limit for definite lengths, the depth of nesting, and the
greatest depth allowed. A container is a value whose content has not been read yet; it carries the
scope for its content.
-/

namespace Ber

/-- What applies to the values at one level of nesting. -/
structure Scope where
  /-- A definite length has to be below the limit. -/
  limit : Nat
  /-- The number of containers around these values. -/
  depth : Nat := 0
  /-- The greatest depth that containers may reach. -/
  maxDepth : Nat
deriving DecidableEq, Repr

namespace Scope

/-- How deep containers may be nested unless told otherwise. -/
def defaultMaxDepth : Nat := 128

/-- The limit that excludes no length: the largest word of 64 bits. -/
def noLimit : Nat := 0xffffffffffffffff

/-- The scope of values that are not nested. -/
def top (limit : Nat := noLimit) (maxDepth : Nat := defaultMaxDepth) : Scope :=
  { limit, maxDepth }

/-- The text of a scope as a term. -/
def termText (scope : Scope) : String :=
  "StreamParser \x7b limit: " ++ toString scope.limit ++ ", depth: " ++ toString scope.depth ++
    ", .. \x7d"

end Scope

/-- The forms of containers. -/
inductive Form where
  | sequence
  | set
  /-- An octet string in segments. -/
  | octetString
  /-- A value of the context specific class, or one of the private class of indefinite length. -/
  | tagged (identifier : Identifier)
deriving DecidableEq, Repr

/-- A value whose content is still to be read. -/
structure Container where
  form : Form
  scope : Scope
  /-- Whether the content ends with the end-of-contents marker. -/
  isIndefinite : Bool
deriving DecidableEq, Repr

/-- The text of a container as a term. -/
def Container.termText (container : Container) : String :=
  let scope := container.scope.termText
  match container.form with
  | .sequence => "Sequence(SequenceParser \x7b parser: " ++ scope ++ " \x7d)"
  | .set => "Set(SetParser \x7b parser: " ++ scope ++ " \x7d)"
  | .octetString => "OctetString(OctetStringParser \x7b parser: " ++ scope ++ " \x7d)"
  | .tagged identifier =>
    "Tagged(TaggedParser \x7b ident: " ++ identifier.termText ++ ", parser: " ++ scope ++ " \x7d)"

/-- The next value of a region: read as a whole, or a container about to be read. -/
inductive Item where
  /-- A value of application or private class: its content is not looked into. -/
  | uninterpreted (identifier : Identifier) (content : Octets)
  | primitive (value : Primitive)
  | container (container : Container)
deriving DecidableEq, Repr

end Ber
