import Ber.Header.Identifier
import Ber.Header.Length

/-!
# Ber.Journal — remarks made while decoding

Decoding leaves a trace: a remark for every header read, for every end of content met and for every
region drained, and some for values that are out of the ordinary. A remark is data; its level and
its text are derived from it, and make up the record that is filed for it.
-/

namespace Ber

/-- How important a remark is. -/
inductive Level where
  | trace
  | debug
  | warn
deriving DecidableEq, Repr

/-- The name of a level. -/
def Level.name : Level → String
  | .trace => "TRACE"
  | .debug => "DEBUG"
  | .warn => "WARN"

/-- A remark made while decoding. Positions count the octets delivered when it was made. -/
inductive Remark where
  /-- The content of a region is over where a value could start. -/
  | endOfContent (position : Nat)
  /-- The header of a value has been read. -/
  | header (identifier : Identifier) (length : Length) (position : Nat)
  /-- A universal tag without a meaning here was met. -/
  | unknownTag (identifier : Identifier) (octets : Nat)
  /-- NULL was written with an indefinite length. -/
  | indefiniteNull (position : Nat)
  /-- All the remaining values of a region have been read. -/
  | drained (elements : Nat) (position : Nat)
deriving DecidableEq, Repr

namespace Remark

/-- The subject that all remarks are filed under. -/
def target : String := "berstream"

/-- The level of a remark. -/
def level : Remark → Level
  | endOfContent _ | header .. | drained .. => .trace
  | unknownTag .. => .debug
  | indefiniteNull _ => .warn

/-- The text of a remark. -/
def text : Remark → String
  | endOfContent position => "end of content at " ++ toString position
  | header identifier length position =>
    identifier.text ++ " with length " ++ length.termText ++ " at " ++ toString position
  | unknownTag identifier octets =>
    "unknown universal tag " ++ identifier.text ++ ", keeping " ++ toString octets ++
      " content octets"
  | indefiniteNull position =>
    "NULL with indefinite length before " ++ toString position
  | drained elements position =>
    "drained " ++ toString elements ++ " elements, end at " ++ toString position

end Remark

/-- What is filed for a remark: the name of its level, its subject and its text. -/
structure Record where
  level : String
  target : String
  text : String
deriving DecidableEq, Repr

/-- The record of a remark. -/
def Remark.record (remark : Remark) : Record :=
  ⟨remark.level.name, target, remark.text⟩

end Ber
