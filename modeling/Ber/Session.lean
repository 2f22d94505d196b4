import Ber.Decoder.Drain

/-!
# Ber.Session — a decoder and its open containers, step by step

A session is a decoder together with the containers that are open on it. Every operation acts on the
innermost one, or on the values outside of all containers if none is open. A container may be given
up at any time; what it has not read is then met as values of the container around it.

`perform` carries out one operation and `run` a list of them up to the first failure.
-/

namespace Ber

/-- What can be asked of a session. -/
inductive Operation where
  /-- Take the next value. A container is opened. -/
  | pull
  /-- Take the next value as a whole. -/
  | element
  /-- Take the next value if it has no parts, and drop it otherwise. -/
  | primitive
  /-- Open the next value if it is a container, and drop it otherwise. -/
  | container
  /-- Take all values that remain. -/
  | drain
  /-- Tell what the session is acting on. -/
  | inspect
  /-- Set how deep containers may be nested. Only outside of all containers. -/
  | setMaxDepth (maxDepth : Nat)
  /-- Take the content octets of a tagged value. -/
  | takeContent
  /-- Join the segments of an octet string. -/
  | join
  /-- Read what remains of the innermost container as one element and give it up. -/
  | finish
  /-- Give up the innermost container as it is. -/
  | leave
deriving DecidableEq, Repr

/-- The answer to an operation. -/
inductive Reply where
  /-- There is no value left. -/
  | exhausted
  | item (item : Item)
  | element (element : Element)
  /-- The value was dropped. -/
  | dropped
  | elements (elements : List Element)
  /-- The session acts on the values outside of all containers. -/
  | scope (scope : Scope) (position : Nat)
  /-- The session acts on the content of a container. -/
  | container (container : Container)
  | maxDepth (maxDepth : Nat)
  | content (octets : Octets)
  | joined (octets : Octets)
  /-- A container was given up. -/
  | left
  /-- The operation does not apply to what the session is acting on. -/
  | notApplicable
deriving DecidableEq, Repr

/-- A decoder and its open containers, the innermost first. -/
structure Session where
  decoder : Decoder
  /-- The scope outside of all containers. -/
  top : Scope
  opened : List Container := []
deriving DecidableEq, Repr

/-- A step of a session. -/
abbrev Stepping (α : Type) := Action Session α

namespace Session

/-- Does on the decoder what a `Decoding` says. -/
def decoding {α : Type} (action : Decoding α) : Stepping α :=
  Action.on Session.decoder (fun decoder session => { session with decoder }) action

instance : MonadLift Decoding Stepping := ⟨decoding⟩

/-- The scope of the values that the session acts on. -/
def current (session : Session) : Scope :=
  match session.opened with
  | [] => session.top
  | container :: _ => container.scope

/-- Makes a container whose region has been entered the innermost one. -/
def push (container : Container) : Stepping Unit :=
  modify fun session => { session with opened := container :: session.opened }

/-- Gives up the innermost container. -/
def giveUp (session : Session) : Session :=
  { session with decoder := session.decoder.leave, opened := session.opened.tail }

/-- Gives up the innermost container after an action, also if it fails. -/
def givingUp {α : Type} (action : Stepping α) : Stepping α := Action.afterwards giveUp action

/-- Takes the next value and goes on with it, if there is one. -/
def withNext (use : Item → Stepping Reply) : Stepping Reply := do
  match ← Decoder.next (← get).current with
  | none => return .exhausted
  | some item => use item

/-- An operation on the next value takes it where the session acts. -/
theorem withNext_eq (use : Item → Stepping Reply) (session : Session) :
    withNext use session =
      (do
        match ← decoding (Decoder.next session.current) with
        | none => return .exhausted
        | some item => use item : Stepping Reply) session := rfl

/-- Drops a value. A container is given up unread. -/
def drop : Item → Decoding Reply
  | .container _ => Decoder.leaving (return .dropped)
  | _ => return .dropped

/-- Carries out one operation. -/
def perform : Operation → Stepping Reply
  | .pull => withNext fun item => do
    if let .container container := item then push container
    return .item item
  | .element => withNext fun item => return .element (← Decoder.element item)
  | .primitive => withNext fun item =>
    match item with
    | .primitive value => return .item (.primitive value)
    | item => drop item
  | .container => withNext fun item =>
    match item with
    | .container container => do
      push container
      return .item (.container container)
    | item => drop item
  | .drain => do
    return .elements (← Decoder.drain (← get).current)
  | .inspect => do
    let session ← get
    match session.opened with
    | [] => return .scope session.top session.decoder.source.position
    | container :: _ => return .container container
  | .setMaxDepth maxDepth => do
    match (← get).opened with
    | [] =>
      modify fun session => { session with top := { session.top with maxDepth } }
      return .maxDepth (← get).top.maxDepth
    | _ => return .notApplicable
  | .takeContent => do
    match (← get).opened with
    | ⟨.tagged _, _, _⟩ :: _ => return .content (← decoding Source.remainder)
    | _ => return .notApplicable
  | .join => do
    match (← get).opened with
    | ⟨.octetString, scope, _⟩ :: _ => return .joined (← Decoder.joined scope)
    | _ => return .notApplicable
  | .finish => do
    match (← get).opened with
    | container :: _ => givingUp (return .element (← Decoder.contents container))
    | [] => return .notApplicable
  | .leave => do
    match (← get).opened with
    | _ :: _ => givingUp (return .left)
    | [] => return .notApplicable

/-- The outcome of a session: the replies in order, the failure that ended it, if one did, and the
session as it was left. -/
structure Outcome where
  replies : List Reply
  failure? : Option Failure
  session : Session
deriving DecidableEq, Repr

/-- Carries out operations in order, up to the first failure. -/
def run : List Operation → Session → Outcome
  | [], session => ⟨[], none, session⟩
  | operation :: operations, session =>
    match perform operation session with
    | .ok reply session =>
      let outcome := run operations session
      { outcome with replies := reply :: outcome.replies }
    | .error failure session => ⟨[], some failure, session⟩

/-- Gives up all containers. -/
def close (session : Session) : Decoder :=
  session.opened.foldl (fun decoder _ => decoder.leave) session.decoder

end Session
end Ber
