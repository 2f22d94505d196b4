import Ber.Proofs.Recounting
import Ber.Proofs.Roundtrip

/-!
# Ber.Proofs.Faults — interruptions go unnoticed, and faults do not

A reader that is interrupted is asked again, and nothing else is known of it. A reader that fails
ends whatever is being read.

1. `Reader.calm` is a reader without its interruptions. It tells the same, at the same places
   (`Retelling.calm`), so draining, walks, sessions and probes agree (`Reader.undisturbed_calm`).
2. A fault among octets that are drained breaks the draining off where it strikes
   (`Decoder.drain_struck`). Until then the reader tells the same (`Retelling.struck`), and whatever
   is drained has been read to the end, so the fault cannot be left behind.
3. `Reader.faults_told` says both of octets with faults scheduled among them.
-/

namespace Ber

/-! ## Schedules -/

/-- Whether an arrival is overcome by asking again. -/
def Arrival.isInterruption : Arrival → Bool
  | .interruption => true
  | _ => false

namespace Reader

variable {faults : List ScheduledFault} {data : Octets}

/-- Octets from an offset on, with the faults scheduled among them. -/
def layOut (faults : List ScheduledFault) : Nat → Octets → List Arrival
  | offset, [] => faultsAt faults offset
  | offset, octet :: rest => faultsAt faults offset ++ .octet octet :: layOut faults (offset + 1) rest

theorem layOut_nil (offset : Nat) (data : Octets) : layOut [] offset data = data.map .octet := by
  induction data generalizing offset with
  | nil => rfl
  | cons octet rest ih => exact congrArg (.octet octet :: ·) (ih (offset + 1))

/-- This is how a reader over data lays faults out. -/
theorem ofData_eq_layOut (data : Octets) (faults : List ScheduledFault) :
    ofData data faults = ⟨layOut faults 0 data, 0⟩ := by
  have hlaid : ∀ offset, (data.zipIdx offset).flatMap
      (fun placed => faultsAt faults placed.2 ++ [.octet placed.1]) ++
        faultsAt faults (offset + data.length) = layOut faults offset data := by
    induction data with
    | nil => exact fun offset => rfl
    | cons octet rest ih =>
      intro offset
      rw [List.length_cons, Nat.add_comm rest.length, ← Nat.add_assoc]
      simp only [List.zipIdx_cons, List.flatMap_cons, layOut, ← ih (offset + 1),
        List.append_assoc, List.cons_append, List.nil_append]
  unfold ofData
  split
  · rename_i hnone
    rw [List.isEmpty_iff.1 hnone, layOut_nil]
  · have hdata := hlaid 0
    rw [Nat.zero_add] at hdata
    exact congrArg (Reader.mk · 0) hdata

theorem faultsAt_single (place offset : Nat) (arrival : Arrival) :
    faultsAt [⟨place, arrival⟩] offset = if place = offset then [arrival] else [] := by
  by_cases h : place = offset <;> simp [faultsAt, h]

/-- A fault does not stand behind its offset. -/
theorem layOut_passed {place offset : Nat} {arrival : Arrival} (h : place < offset) :
    layOut [⟨place, arrival⟩] offset data = data.map .octet := by
  induction data generalizing offset with
  | nil => rw [layOut, faultsAt_single, if_neg (Nat.ne_of_lt h), List.map_nil]
  | cons octet rest ih =>
    rw [layOut, faultsAt_single, if_neg (Nat.ne_of_lt h), ih (Nat.lt_succ_of_lt h)]
    rfl

/-- A single fault stands in front of the octet at its offset, or behind all octets. -/
theorem layOut_single {offset k : Nat} {arrival : Arrival} (hk : k ≤ data.length) :
    layOut [⟨offset + k, arrival⟩] offset data =
      (data.take k).map .octet ++ arrival :: (data.drop k).map .octet := by
  induction data generalizing offset k with
  | nil =>
    obtain rfl : k = 0 := Nat.le_zero.1 hk
    rw [layOut, faultsAt_single, if_pos (Nat.add_zero offset)]
    rfl
  | cons octet rest ih =>
    rw [layOut, faultsAt_single]
    cases k with
    | zero =>
      rw [if_pos (Nat.add_zero offset), layOut_passed (Nat.lt_succ_self (offset + 0))]
      rfl
    | succ k =>
      have hoffset : offset + (k + 1) = offset + 1 + k := by omega
      rw [if_neg (by omega), hoffset, ih (Nat.le_of_succ_le_succ hk)]
      rfl

/-! ## Interruptions -/

/-- A reader without its interruptions. -/
def calm (reader : Reader) : Reader :=
  ⟨reader.arrivals.filter (!·.isInterruption), reader.position⟩

theorem octetsLeft_calm (reader : Reader) : reader.calm.octetsLeft = reader.octetsLeft := by
  have hkept : (fun arrival : Arrival =>
      if (!arrival.isInterruption) = true then arrival.octet? else none) = Arrival.octet? := by
    funext arrival
    cases arrival <;> rfl
  unfold octetsLeft calm
  rw [List.filterMap_filter, hkept]

/-- Interruptions decide nothing of what a reader meets. -/
theorem nextFrom_calm (position : Nat) (arrivals : List Arrival) :
    nextFrom position (arrivals.filter (!·.isInterruption)) =
      match nextFrom position arrivals with
      | .ok octet after => .ok octet after.calm
      | .error failure after => .error failure after.calm := by
  fun_induction nextFrom position arrivals with
  | case1 => rfl
  | case2 value rest => rfl
  | case3 rest ih => exact ih
  | case4 reason rest => rfl

/-- Without its interruptions, a schedule is that of the other faults. -/
theorem calm_ofData (data : Octets) (faults : List ScheduledFault) :
    (ofData data faults).calm = ofData data (faults.filter (!·.arrival.isInterruption)) := by
  have hfaults : ∀ offset, (faultsAt faults offset).filter (!·.isInterruption) =
      faultsAt (faults.filter (!·.arrival.isInterruption)) offset := by
    intro offset
    unfold faultsAt
    rw [List.filter_map, List.filter_filter, List.filter_filter]
    simp only [Bool.and_comm, Function.comp_def]
  have hlaid : ∀ offset, (layOut faults offset data).filter (!·.isInterruption) =
      layOut (faults.filter (!·.arrival.isInterruption)) offset data := by
    induction data with
    | nil => exact hfaults
    | cons octet rest ih =>
      intro offset
      rw [layOut, layOut, List.filter_append, hfaults, ← ih (offset + 1)]
      rfl
  rw [ofData_eq_layOut, ofData_eq_layOut, ← hlaid 0]
  rfl

end Reader

/-- A reader without its interruptions tells the same. -/
def Retelling.calm : Retelling where
  alike reader other := other = reader.calm
  place := id
  breaks _ := False
  position h := by
    rw [h]
    rfl
  left h := by rw [h, Reader.octetsLeft_calm]
  next := by
    rintro reader other rfl
    have hnext : Reader.next reader.calm = _ :=
      Reader.nextFrom_calm reader.position reader.arrivals
    rw [hnext]
    show Action.Told _ _ _ (Reader.nextFrom reader.position reader.arrivals) _
    cases Reader.nextFrom reader.position reader.arrivals with
    | ok octet after => exact ⟨rfl, rfl⟩
    | error failure after => exact .inl ⟨rfl, rfl⟩

theorem Retelling.faithful_calm : Retelling.calm.Faithful := ⟨rfl, fun _ h => h⟩

/-! ## Readers that are told apart by nothing -/

/-- Two sources have the same regions open, at the same place of the same octets. -/
structure Source.Matches (source other : Source) : Prop where
  regions : other.regions = source.regions
  position : other.position = source.position
  rest : other.rest = source.rest

/-- Two decoders have matching sources and the same remarks. -/
structure Decoder.Matches (decoder other : Decoder) : Prop where
  source : decoder.source.Matches other.source
  journal : other.journal = decoder.journal

/-- Two outcomes are the same value or the same failure, and the states match. -/
def Action.Same {σ α : Type} (Match : σ → σ → Prop) :
    EStateM.Result Failure σ α → EStateM.Result Failure σ α → Prop
  | .ok a s, .ok b t => b = a ∧ Match s t
  | .error failure s, .error other t => other = failure ∧ Match s t
  | _, _ => False

/-- All that is read from one reader, in whatever regions, is read from another one. -/
structure Reader.Undisturbed (reader other : Reader) : Prop where
  drain : ∀ regions scope journal, Action.Same Decoder.Matches
    (Decoder.drain scope ⟨⟨regions, reader⟩, journal⟩)
    (Decoder.drain scope ⟨⟨regions, other⟩, journal⟩)
  walk : ∀ regions gait scope journal,
    let walked := Decoder.walk gait scope ⟨⟨regions, reader⟩, journal⟩
    let walked' := Decoder.walk gait scope ⟨⟨regions, other⟩, journal⟩
    walked'.events = walked.events ∧ walked'.failure? = walked.failure? ∧
      walked.decoder.Matches walked'.decoder
  session : ∀ regions operations top opened journal,
    let outcome := Session.run operations ⟨⟨⟨regions, reader⟩, journal⟩, top, opened⟩
    let outcome' := Session.run operations ⟨⟨⟨regions, other⟩, journal⟩, top, opened⟩
    outcome'.replies = outcome.replies ∧ outcome'.failure? = outcome.failure? ∧
      outcome'.session.top = outcome.session.top ∧
      outcome'.session.opened = outcome.session.opened ∧
      outcome.session.decoder.Matches outcome'.session.decoder
  probe : ∀ regions requests asContent,
    let answered := Probe.run requests ⟨⟨regions, reader⟩, asContent⟩
    let answered' := Probe.run requests ⟨⟨regions, other⟩, asContent⟩
    answered'.1 = answered.1 ∧ answered.2.source.Matches answered'.2.source ∧
      answered'.2.asContent = answered.2.asContent

/-- Remarks that are made at the same place are the same. -/
theorem Remark.map_moved_id (journal : List Remark) : journal.map (·.moved id) = journal := by
  have hmoved : (fun remark : Remark => remark.moved id) = id := by
    funext remark
    cases remark <;> rfl
  rw [hmoved, List.map_id]

namespace Retelling

variable {s t : Source} {d e : Decoder}

theorem Sources.matches_calm (h : Retelling.calm.Sources s t) : s.Matches t where
  regions := h.regions
  position := h.position
  rest := by
    unfold Source.rest
    rw [h.reader, Reader.octetsLeft_calm]

theorem Decoders.matches_calm (h : Retelling.calm.Decoders d e) : d.Matches e where
  source := h.source.matches_calm
  journal := h.journal.trans (Remark.map_moved_id d.journal)

end Retelling

/-- Nothing that is read tells a reader from one without its interruptions. -/
theorem Reader.undisturbed_calm (reader : Reader) : reader.Undisturbed reader.calm := by
  have hsources : ∀ regions, Retelling.calm.Sources ⟨regions, reader⟩ ⟨regions, reader.calm⟩ :=
    fun regions => ⟨rfl, rfl⟩
  have hdecoders : ∀ regions journal, Retelling.calm.Decoders ⟨⟨regions, reader⟩, journal⟩
      ⟨⟨regions, reader.calm⟩, journal⟩ := fun regions journal =>
    ⟨hsources regions, (Remark.map_moved_id journal).symm⟩
  refine ⟨fun regions scope journal => ?_, fun regions gait scope journal => ?_,
    fun regions operations top opened journal => ?_, fun regions requests asContent => ?_⟩
  · have hdrain := Retelling.calm.drain_retells scope _ _ (hdecoders regions journal)
    rcases Retelling.faithful_calm.outcomes hdrain with ⟨elements, d, e, hrun, hother, h⟩ |
      ⟨failure, d, e, hrun, hother, h⟩
    · rw [hrun, hother]
      exact ⟨rfl, h.matches_calm⟩
    · rw [hrun, hother]
      exact ⟨rfl, h.matches_calm⟩
  · obtain ⟨hevents, hfailure, h⟩ :=
      Retelling.faithful_calm.walk_same gait scope (hdecoders regions journal)
    exact ⟨hevents, hfailure, h.matches_calm⟩
  · have hsessions : Retelling.calm.Sessions ⟨⟨⟨regions, reader⟩, journal⟩, top, opened⟩
        ⟨⟨⟨regions, reader.calm⟩, journal⟩, top, opened⟩ := ⟨hdecoders regions journal, rfl, rfl⟩
    obtain ⟨hreplies, hfailure, h⟩ := Retelling.faithful_calm.run_same operations hsessions
    exact ⟨hreplies, hfailure, h.top, h.opened, h.decoder.matches_calm⟩
  · have hprobes : Retelling.calm.Probes ⟨⟨regions, reader⟩, asContent⟩
        ⟨⟨regions, reader.calm⟩, asContent⟩ := ⟨hsources regions, rfl⟩
    obtain ⟨hanswers, h⟩ := Retelling.faithful_calm.probe_same requests hprobes
    exact ⟨hanswers, h.source.matches_calm, h.asContent⟩

/-! ## Faults that strike -/

/-- A reader that meets the same but for a fault, which it will meet at a position. -/
def Reader.Struck (reason : String) (position : Nat) (reader other : Reader) : Prop :=
  ∃ front tail, reader.arrivals = front ++ tail ∧
    other.arrivals = front ++ .fault reason :: tail ∧ other.position = reader.position ∧
    reader.position + (front.filterMap Arrival.octet?).length = position

/-- The fault breaks off what is read where it strikes. Until then the reader tells the same. -/
def Retelling.struck (reason : String) (position : Nat) : Retelling where
  alike := Reader.Struck reason position
  place := id
  breaks told := told = ⟨.unreadable reason, position⟩
  position := fun ⟨_, _, _, _, hposition, _⟩ => hposition
  left := by
    rintro reader other ⟨front, tail, harrivals, hothers, -, -⟩
    simp [Reader.octetsLeft, harrivals, hothers, List.filterMap_cons, Arrival.octet?]
  next := by
    rintro ⟨arrivals, start⟩ ⟨others, start'⟩ ⟨front, tail, harrivals, hothers, hstart, hplace⟩
    obtain rfl : arrivals = front ++ tail := harrivals
    obtain rfl : others = front ++ .fault reason :: tail := hothers
    obtain rfl : start' = start := hstart
    show Action.Told _ _ _ (Reader.nextFrom start' (front ++ tail))
      (Reader.nextFrom start' (front ++ .fault reason :: tail))
    induction front with
    | nil => exact .of_breaks (congrArg (Failure.mk (.unreadable reason)) hplace)
    | cons arrival front ih =>
      cases arrival with
      | octet value =>
        refine ⟨rfl, front, tail, rfl, rfl, rfl, ?_⟩
        rw [← hplace]
        exact Nat.add_right_comm start' 1 _
      | interruption => exact ih hplace
      | fault other => exact .inl ⟨rfl, front, tail, rfl, rfl, rfl, hplace⟩

namespace Decoder

variable {limit maxDepth k : Nat} {reason : String} {reader other : Reader}
  {journal : List Remark} {drained : List Element} {decoder : Decoder}

/-- What would be drained is not drained past a fault: draining fails where the fault strikes. -/
theorem drain_struck (hstruck : Reader.Struck reason k reader other)
    (h : drain (Scope.top limit maxDepth) ⟨⟨[], reader⟩, journal⟩ = .ok drained decoder)
    (journal' : List Remark) : ∃ after,
      drain (Scope.top limit maxDepth) ⟨⟨[], other⟩, journal'⟩ =
        .error ⟨.unreadable reason, k⟩ after := by
  have hsilent := silent_drain (Scope.top limit maxDepth)
  have htold := (Retelling.struck reason k).elementsFrom_retells (Scope.top limit maxDepth)
    ⟨[], reader⟩ ⟨[], other⟩ ⟨rfl, hstruck⟩
  rw [← hsilent ⟨[], reader⟩ journal, ← hsilent ⟨[], other⟩ journal', h] at htold
  cases hrun : drain (Scope.top limit maxDepth) ⟨⟨[], other⟩, journal'⟩ with
  | ok elements after =>
    -- the reader would have been read to its end, with the fault still before it
    rw [hrun] at htold
    obtain ⟨-, -, front, tail, -, hleft, -, -⟩ := htold
    obtain ⟨-, -, -, -, -, hsource⟩ := written_of_drain hrun
    rw [hsource] at hleft
    exact absurd hleft.symm (List.append_ne_nil_of_right_ne_nil _ (List.cons_ne_nil _ _))
  | error failure after =>
    rw [hrun] at htold
    obtain rfl : failure = ⟨.unreadable reason, k⟩ := htold
    exact ⟨after, rfl⟩

end Decoder

/-! ## Octets with faults among them -/

namespace Reader

/-- A single fault scheduled among octets strikes at its offset. -/
theorem struck_ofData {data : Octets} {k : Nat} (hk : k ≤ data.length) (reason : String) :
    Struck reason k (ofData data) (ofData data [⟨k, .fault reason⟩]) := by
  have hlaid := @layOut_single data 0 k (.fault reason) hk
  rw [Nat.zero_add] at hlaid
  rw [ofData_eq_layOut data [⟨k, .fault reason⟩], hlaid]
  refine ⟨(data.take k).map .octet, (data.drop k).map .octet, ?_, rfl, rfl, ?_⟩
  · rw [← List.map_append, List.take_append_drop]
    rfl
  · have hoctets : ((data.take k).map Arrival.octet).filterMap Arrival.octet? = data.take k := by
      rw [List.filterMap_map]
      exact List.filterMap_some
    rw [hoctets, List.length_take_of_le hk]
    exact Nat.zero_add k

/-- Interruptions scheduled among octets are not noticed: whatever is read, in whatever regions, it
is read as without them. A fault scheduled among octets that would be drained, with any interruptions
besides, is told: draining fails with it where it is scheduled. -/
theorem faults_told (data : Octets) (faults : List ScheduledFault) :
    ((∀ fault ∈ faults, fault.arrival = .interruption) →
      Undisturbed (ofData data faults) (ofData data)) ∧
    ∀ reason k, k ≤ data.length →
      faults.filter (!·.arrival.isInterruption) = [⟨k, .fault reason⟩] →
      ∀ limit maxDepth journal drained decoder,
        Decoder.drain (Scope.top limit maxDepth) ⟨.ofData data, journal⟩ = .ok drained decoder →
        ∀ journal', ∃ after,
          Decoder.drain (Scope.top limit maxDepth) ⟨⟨[], ofData data faults⟩, journal'⟩ =
            .error ⟨.unreadable reason, k⟩ after := by
  constructor
  · intro hinterruptions
    have hnone : faults.filter (!·.arrival.isInterruption) = [] := by
      refine List.filter_eq_nil_iff.2 fun fault hmem => ?_
      rw [hinterruptions fault hmem]
      decide
    have hundisturbed := undisturbed_calm (ofData data faults)
    rw [calm_ofData, hnone] at hundisturbed
    exact hundisturbed
  · intro reason k hk hfault limit maxDepth journal drained decoder hdrained journal'
    have hundisturbed := (undisturbed_calm (ofData data faults)).drain []
      (Scope.top limit maxDepth) journal'
    obtain ⟨after, hfailed⟩ := Decoder.drain_struck (struck_ofData hk reason) hdrained journal'
    rw [calm_ofData, hfault, hfailed] at hundisturbed
    cases hrun : Decoder.drain (Scope.top limit maxDepth) ⟨⟨[], ofData data faults⟩, journal'⟩ with
    | ok elements decoder =>
      rw [hrun] at hundisturbed
      exact hundisturbed.elim
    | error failure decoder =>
      rw [hrun] at hundisturbed
      exact ⟨decoder, congrArg (EStateM.Result.error · decoder) hundisturbed.1.symm⟩

/-- NULL, with interruptions between its octets and at the end, and with a fault at the end. -/
theorem faults_told_null :
    Undisturbed (ofData [0x05, 0x00] [⟨1, .interruption⟩, ⟨2, .interruption⟩])
        (ofData [0x05, 0x00]) ∧
      ∃ after, Decoder.drain Scope.top ⟨⟨[], ofData [0x05, 0x00]
          [⟨1, .interruption⟩, ⟨2, .fault "connection reset"⟩]⟩, []⟩ =
        .error ⟨.unreadable "connection reset", 2⟩ after :=
  ⟨(faults_told _ _).1 (by decide), (faults_told _ _).2 "connection reset" 2 (by decide) (by decide)
    Scope.noLimit Scope.defaultMaxDepth [] [.primitive .null] _ rfl []⟩

end Reader
end Ber
