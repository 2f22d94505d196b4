import Ber.Octets
import Ber.Source.Region

/-!
# Ber.Source.Reader — octets as they arrive

A reader is asked for one octet at a time. What it meets is an `Arrival`: an octet, an interruption
or a fault. Interruptions are overcome by asking again; a fault is reported once and then gone.

`Reader.ofData` lays faults out among the octets of the data: a fault at an offset arrives when that
many octets have been delivered, so one at the very end arrives before the end is reported.
-/

namespace Ber

/-- What a reader meets when it is asked for an octet. -/
inductive Arrival where
  | octet (value : UInt8)
  | interruption
  | fault (reason : String)
deriving DecidableEq, Repr

/-- The octet that arrives, if it is one. -/
def Arrival.octet? : Arrival → Option UInt8
  | .octet value => some value
  | _ => none

/-- A fault scheduled to arrive once so many octets have been delivered. -/
structure ScheduledFault where
  offset : Nat
  arrival : Arrival
deriving DecidableEq, Repr

/-- A reader: what will arrive, and how many octets it has delivered. -/
structure Reader where
  arrivals : List Arrival
  position : Nat := 0
deriving DecidableEq, Repr

namespace Reader

/-- The faults that arrive at an offset, in the order of the schedule. -/
def faultsAt (faults : List ScheduledFault) (offset : Nat) : List Arrival :=
  (faults.filter (·.offset == offset)).map (·.arrival)

/-- A reader over data with a schedule of faults. Faults behind the end of the data never arrive. -/
def ofData (data : Octets) (faults : List ScheduledFault := []) : Reader :=
  if faults.isEmpty then { arrivals := data.map .octet }
  else
    { arrivals :=
        data.zipIdx.flatMap (fun (octet, offset) => faultsAt faults offset ++ [.octet octet]) ++
          faultsAt faults data.length }

/-- The octets that have not been delivered yet. -/
def octetsLeft (reader : Reader) : Octets := reader.arrivals.filterMap Arrival.octet?

/-- The first arrival that is not an interruption decides: an octet is delivered, a fault is
reported, and if there is none the reader is at its end. -/
def nextFrom (position : Nat) : List Arrival → EStateM.Result Failure Reader (Option UInt8)
  | [] => .ok none ⟨[], position⟩
  | .octet value :: rest => .ok (some value) ⟨rest, position + 1⟩
  | .interruption :: rest => nextFrom position rest
  | .fault reason :: rest => .error ⟨.unreadable reason, position⟩ ⟨rest, position⟩

/-- Asks the reader for the next octet. -/
def next : Action Reader (Option UInt8) :=
  fun reader => nextFrom reader.position reader.arrivals

/-- A reader spends the octets that it delivers. -/
theorem nextFrom_spends (position : Nat) (arrivals : List Arrival) :
    Spends (fun reader => reader.octetsLeft.length)
      (arrivals.filterMap Arrival.octet?).length (nextFrom position arrivals) := by
  fun_induction nextFrom position arrivals <;>
    simp_all [Spends, octetsLeft, Arrival.octet?, List.filterMap_cons]

end Reader
end Ber
