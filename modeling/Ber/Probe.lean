import Ber.Header.Identifier
import Ber.Header.Length

/-!
# Ber.Probe — a source, step by step

A probe is a source that is asked for one thing at a time, as decoding asks for it, but in any
order. Regions are opened and given up by hand. A region may be opened as the content of a value:
then only the form of the value can be told of it, and it is taken octet by octet.

`perform` answers one request and `run` a list of them. A request that fails ends nothing: the next
one is made of the source as it was left.
-/

namespace Ber

/-- A source and, for each region opened on it, whether it is opened as the content of a value. -/
structure Probe where
  source : Source
  asContent : List Bool := []
deriving DecidableEq, Repr

namespace Probe

/-- What can be asked of a probe. -/
inductive Request where
  /-- Take the next octet, if there is one. -/
  | octet?
  /-- Take the next octet. -/
  | octet
  | position
  | available
  /-- Switch the lookout for the end-of-contents marker. -/
  | watch (enabled : Bool)
  /-- Take an identifier, if there is one. -/
  | identifier?
  /-- Take what follows the first octet of an identifier. -/
  | identifierAfter (first : UInt8)
  /-- Take the length octets of a value. -/
  | length (limit : Nat)
  /-- Open a region of a length, as content or as such. -/
  | enter (length : Length) (asContent : Bool)
  /-- Tell what is known of the innermost region. -/
  | state
  /-- Take all that remains of a definite region. -/
  | remainder
  /-- Skip a marked region up to and including its marker. -/
  | skip
  /-- Give up the innermost region. -/
  | leave
deriving DecidableEq, Repr

/-- The answer to a request. -/
inductive Answer where
  | octet? (octet : Option UInt8)
  | octet (octet : UInt8)
  | position (position : Nat)
  | available (available : Option Nat)
  | identifier? (identifier : Option Identifier)
  | identifier (identifier : Identifier)
  | length (length : Length)
  /-- So many octets of a definite region remain. -/
  | remaining (octets : Nat)
  /-- Whether a marked region has ended. -/
  | closed (closed : Bool)
  /-- Whether a value is of indefinite length. -/
  | isIndefinite (isIndefinite : Bool)
  | octets (octets : Octets)
  | done
  /-- The request does not apply to the innermost region. -/
  | notApplicable
deriving DecidableEq, Repr

/-- Does on the source what a `Taking` says. -/
def sourcing {α : Type} (action : Taking α) : Action Probe α :=
  Action.on Probe.source (fun source probe => { probe with source }) action

instance : MonadLift Taking (Action Probe) := ⟨sourcing⟩

/-- What is known of the innermost region. Of content, that is the form of the value alone. -/
def state (probe : Probe) : Answer :=
  match probe.source.regions, probe.asContent with
  | region :: _, true :: _ => .isIndefinite region.isMarked
  | .definite remaining :: _, _ => .remaining remaining
  | .marked state :: _, _ => .closed state.closed
  | [], _ => .notApplicable

/-- Answers one request. -/
def perform : Request → Action Probe Answer
  | .octet? => return .octet? (← Source.octet?)
  | .octet => return .octet (← Source.octet)
  | .position => return .position (← get).source.position
  | .available => return .available (← get).source.available
  | .watch enabled => do
    modify fun probe => { probe with source := probe.source.watch enabled }
    return .done
  | .identifier? => return .identifier? (← Identifier.take?)
  | .identifierAfter first => return .identifier (← Identifier.after first)
  | .length limit => return .length (← Length.take limit)
  | .enter length asContent => do
    modify fun probe => ⟨probe.source.enter length.region, asContent :: probe.asContent⟩
    return .done
  | .state => return (← get).state
  | .remainder => do
    let probe ← get
    match probe.source.regions, probe.asContent with
    | .definite _ :: _, false :: _ => return .octets (← Source.remainder)
    | _, _ => return .notApplicable
  | .skip => do
    let probe ← get
    match probe.source.regions, probe.asContent with
    | .marked _ :: _, false :: _ => do
      Source.skipToEnd
      return .done
    | _, _ => return .notApplicable
  | .leave => do
    let probe ← get
    match probe.asContent with
    | _ :: below => do
      set (⟨probe.source.leave, below⟩ : Probe)
      return .done
    | [] => return .notApplicable

/-- Answers requests in order. A failure is an answer like any other. -/
def run : List Request → Probe → List (Except Failure Answer) × Probe
  | [], probe => ([], probe)
  | request :: requests, probe =>
    match perform request probe with
    | .ok answer probe =>
      let (answers, probe) := run requests probe
      (.ok answer :: answers, probe)
    | .error failure probe =>
      let (answers, probe) := run requests probe
      (.error failure :: answers, probe)

end Probe
end Ber
