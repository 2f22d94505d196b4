import Ber.Decoder.Drain

/-!
# Ber.Decoder.Walk — visiting values in the order they are met

A walk takes the values of a region one by one and enters every container it meets. It leaves a
trail of events with the level of nesting, also if it ends with a failure. Two kinds of containers
may be taken in one go instead of being entered, depending on the `Gait`: segmented octet strings,
and tagged values that are not constructed.
-/

namespace Ber

/-- Which containers a walk takes in one go. -/
structure Gait where
  /-- Segmented octet strings are joined. -/
  joins : Bool := false
  /-- The content of tagged values that are not constructed is taken as it is. -/
  takesContent : Bool := false
deriving DecidableEq, Repr

/-- What a walk meets. -/
inductive Sight where
  /-- A value, or a container that is entered next. -/
  | item (item : Item)
  /-- The joined segments of the octet string entered last. -/
  | joined (octets : Octets)
  /-- The content of the tagged value entered last. -/
  | content (octets : Octets)
  /-- The end of a region. -/
  | finish
deriving DecidableEq, Repr

/-- What a walk meets, and the number of containers around it. -/
structure Event where
  level : Nat
  sight : Sight
deriving DecidableEq, Repr

/-- A decoder on a walk, with the events so far, the latest first. -/
structure Walker where
  decoder : Decoder
  trail : List Event := []
deriving DecidableEq, Repr

/-- A stretch of a walk. -/
abbrev Walking (α : Type) := Action Walker α

namespace Walker

/-- Does on the decoder what a `Decoding` says. -/
def decoding {α : Type} (action : Decoding α) : Walking α :=
  Action.on Walker.decoder (fun decoder walker => { walker with decoder }) action

instance : MonadLift Decoding Walking := ⟨decoding⟩

/-- Notes an event. -/
def note (level : Nat) (sight : Sight) : Walking Unit :=
  modify fun walker => { walker with trail := ⟨level, sight⟩ :: walker.trail }

/-- Gives up the innermost region after a stretch, also if it fails. -/
def leaving (stretch : Walking Unit) : Walking Unit :=
  Action.afterwards (fun walker => { walker with decoder := walker.decoder.leave }) stretch

/-- Visits the values of the innermost region, which is so many levels deep inside containers. Each
value spends octets, so a bound above the number of octets left is never reached. -/
def visitWithin : (bound : Nat) → (gait : Gait) → (level : Nat) → (scope : Scope) → Walking Unit
  | 0, _, _, _ => decoding (Source.fail (α := Unit) .truncated)
  | bound + 1, gait, level, scope => do
    match ← Decoder.next scope with
    | none => note level .finish
    | some item =>
      note level (.item item)
      if let .container ⟨form, inner, _⟩ := item then
        leaving do
          match form with
          | .octetString =>
            if gait.joins then note (level + 1) (.joined (← Decoder.joinedWithin bound inner []))
            else visitWithin bound gait (level + 1) inner
          | .tagged identifier =>
            if gait.takesContent && !identifier.isConstructed then
              note (level + 1) (.content (← decoding Source.remainder))
            else visitWithin bound gait (level + 1) inner
          | _ => visitWithin bound gait (level + 1) inner
      visitWithin bound gait level scope

end Walker

/-- The outcome of a walk: the events in order, and the failure that ended it, if one did. -/
structure Walk where
  events : List Event
  failure? : Option Failure
  decoder : Decoder
deriving DecidableEq, Repr

/-- Walks through all values of the innermost region. -/
def Decoder.walk (gait : Gait) (scope : Scope) (decoder : Decoder) : Walk :=
  match Walker.visitWithin (decoder.source.left + 1) gait 0 scope { decoder } with
  | .ok () walker => ⟨walker.trail.reverse, none, walker.decoder⟩
  | .error failure walker => ⟨walker.trail.reverse, some failure, walker.decoder⟩

end Ber
