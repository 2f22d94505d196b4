import Ber.Proofs.Retelling
import Ber.Proofs.Truncation

/-!
# Ber.Proofs.Appending — octets in a row are drained one after the other

Outside of all containers nothing is carried over from one value to the next. So draining octets with
others behind them drains the one and then the other.

1. Where a value ends, reading goes on as it begins at the front of octets, further on by the number of
   octets in front (`Retelling.later`).
2. `Source.elementsFrom_extend` drains a source with more behind it, whatever the reader meets, and
   `Decoder.drain_append` says so of octets in a row.
-/

namespace Ber

/-! ## Places further on -/

/-- What a reader meets does not depend on how many octets it has delivered. -/
theorem Reader.nextFrom_later (count position : Nat) (arrivals : List Arrival) :
    nextFrom (position + count) arrivals =
      match nextFrom position arrivals with
      | .ok octet after => .ok octet ⟨after.arrivals, after.position + count⟩
      | .error failure after =>
        .error (failure.moved (· + count)) ⟨after.arrivals, after.position + count⟩ := by
  fun_induction nextFrom position arrivals with
  | case1 => rfl
  | case2 value rest =>
    show EStateM.Result.ok (some value) (⟨rest, position + count + 1⟩ : Reader) = _
    rw [Nat.add_right_comm]
  | case3 rest ih => exact ih
  | case4 reason rest => rfl

/-- Readers that meet the same, and have delivered so many octets more. -/
def Retelling.later (count : Nat) : Retelling where
  alike reader other := other.arrivals = reader.arrivals ∧ other.position = reader.position + count
  place position := position + count
  breaks _ := False
  position h := h.2
  left h := by
    unfold Reader.octetsLeft
    rw [h.1]
  next := by
    rintro ⟨arrivals, position⟩ ⟨others, further⟩ ⟨harrivals, hposition⟩
    obtain rfl : others = arrivals := harrivals
    obtain rfl : further = position + count := hposition
    have hnext := Reader.nextFrom_later count position others
    simp only [Reader.next]
    rw [hnext]
    cases Reader.nextFrom position others with
    | ok octet after => exact ⟨rfl, rfl, rfl⟩
    | error failure after => exact .inl ⟨rfl, rfl, rfl⟩

/-! ## Values with more behind them -/

/-- A reader that is at its end goes on with what arrives behind. -/
theorem Reader.nextFrom_append_of_none {position : Nat} {arrivals : List Arrival} {after : Reader}
    (h : nextFrom position arrivals = .ok none after) (tail : List Arrival) :
    nextFrom position (arrivals ++ tail) = nextFrom position tail := by
  fun_induction nextFrom position arrivals with
  | case1 => rfl
  | case2 value rest => cases h
  | case3 rest ih => exact ih h
  | case4 reason rest => cases h

namespace Source

variable {s t : Source} {scope : Scope} {tail : List Arrival}

/-- Where no region is open, the reader is asked for the first octet of a value. -/
theorem firstOctet?_nil (reader : Reader) :
    firstOctet? ⟨[], reader⟩ =
      match reader.next with
      | .ok octet after => .ok octet ⟨[], after⟩
      | .error failure after => .error failure ⟨[], after⟩ := by
  have hoctet : (watch true ⟨[], reader⟩).octet? = octet? ⟨[], reader⟩ := rfl
  simp only [firstOctet?, Action.afterwards, hoctet, octet?_nil]
  cases reader.next <;> rfl

/-- Behind the end of all octets, values are taken as they are from what arrives there. -/
theorem nextElement_extend_of_none (hregions : s.regions = [])
    (h : next scope s = .ok none t) :
    nextElement scope (s.extend tail) = nextElement scope (t.extend tail) := by
  rcases s with ⟨regions, ⟨arrivals, position⟩⟩
  obtain rfl : regions = [] := hregions
  have hfirst : firstOctet? ⟨[], ⟨arrivals, position⟩⟩ = .ok none t := next_eq_none_iff.1 h
  rw [firstOctet?_nil] at hfirst
  cases hrun : Reader.nextFrom position arrivals with
  | error failure after =>
    simp only [Reader.next, hrun] at hfirst
    cases hfirst
  | ok found after =>
    simp only [Reader.next, hrun] at hfirst
    cases hfirst
    have hended := Reader.nextFrom_append_of_none hrun tail
    obtain ⟨-, rfl⟩ := Reader.nextFrom_eq_none hrun
    have hnext : next scope ⟨[], ⟨arrivals ++ tail, position⟩⟩ =
        next scope ⟨[], ⟨tail, position⟩⟩ := by
      rw [next_eq, next_eq, firstOctet?_nil, firstOctet?_nil]
      simp only [Reader.next, hended]
      rfl
    show (next scope >>= _) _ = (next scope >>= _) _
    simp only [Bind.bind, EStateM.bind]
    rw [show extend tail ⟨[], ⟨arrivals, position⟩⟩ = ⟨[], ⟨arrivals ++ tail, position⟩⟩ from rfl,
      hnext]
    rfl

/-- Draining what has more behind it drains that afterwards, unless it fails before. -/
theorem elementsFrom_extend (hregions : s.regions = []) :
    match elementsFrom scope [] s with
    | .ok elements t => elementsFrom scope [] (s.extend tail) =
      match elementsFrom scope [] (t.extend tail) with
      | .ok others u => .ok (elements ++ others) u
      | .error failure u => .error failure u
    | .error failure t => CutOff failure t ∨
      elementsFrom scope [] (s.extend tail) = .error failure (t.extend tail) := by
  generalize hleft : s.left = left
  induction left using Nat.strongRecOn generalizing s with
  | ind left ih =>
    subst hleft
    have hsettled : s.Settled := .inl fun region hmem => by
      rw [show (s.watch false).regions = [] by
        show s.regions.modifyHead _ = []
        rw [hregions]
        rfl] at hmem
      cases hmem
    by_cases hended : ∃ t, next scope s = .ok none t
    · -- nothing is left in front of what arrives behind
      obtain ⟨t, hnone⟩ := hended
      have hsame : nextElement scope (s.extend tail) = nextElement scope (t.extend tail) :=
        nextElement_extend_of_none hregions hnone
      have hnext : nextElement scope s = .ok none t := Action.bind_eq_ok.2 ⟨none, t, hnone, rfl⟩
      rw [elementsFrom_nextElement, hnext]
      show elementsFrom scope [] (s.extend tail) = _
      rw [elementsFrom_nextElement, hsame, ← elementsFrom_nextElement]
      cases elementsFrom scope [] (t.extend tail) <;> rfl
    · have hunaffected : Unaffected tail (nextElement scope) s :=
        nextElement_unaffected hsettled fun _ t hnone => hended ⟨t, hnone⟩
      rw [elementsFrom_nextElement, elementsFrom_nextElement scope (s.extend tail)]
      rcases hunaffected.outcomes with ⟨_ | first, t, hrun, hsame⟩ | ⟨failure, t, hrun, hsame⟩ |
        ⟨failure, t, hrun, hcut⟩
      · -- a value is found, or else the end
        obtain ⟨found, m, hnext, hrest⟩ := Action.bind_eq_ok.1 hrun
        cases found with
        | none => exact absurd ⟨m, hnext⟩ hended
        | some item =>
          obtain ⟨element, m', -, hpure⟩ := Action.bind_eq_ok.1 hrest
          cases (Action.pure_eq_ok.1 hpure).1
      · obtain ⟨c, hc⟩ := nextElement_proceeds scope s hsettled
        rw [hrun] at hc
        have ht : t.regions = [] := by
          have houtlines := hc.outlines
          rw [hregions] at houtlines
          exact List.map_eq_nil_iff.1 houtlines
        have hless : t.left < s.left := by
          obtain ⟨found, m, hnext, hrest⟩ := Action.bind_eq_ok.1 hrun
          cases found with
          | none => cases (Action.pure_eq_ok.1 hrest).1
          | some item =>
            obtain ⟨element, m', helement, hpure⟩ := Action.bind_eq_ok.1 hrest
            cases (Action.pure_eq_ok.1 hpure).2
            exact left_of_element_eq_ok hnext helement
        have hrest := ih _ hless ht rfl
        rw [hrun, hsame]
        dsimp only
        cases hdrained : elementsFrom scope [] t with
        | error failure u =>
          rw [hdrained] at hrest
          rcases hrest with hcut | hfailed
          · exact .inl hcut
          · right
            rw [hfailed]
        | ok elements u =>
          rw [hdrained] at hrest
          dsimp only at hrest ⊢
          rw [hrest]
          cases elementsFrom scope [] (u.extend tail) <;> rfl
      · rw [hrun, hsame]
        exact .inr rfl
      · rw [hrun]
        exact .inl hcut

theorem ofData_eq_bare (octets : Octets) : ofData octets = bare octets 0 := rfl

/-- Draining octets further on gives the same, and fails alike further on. -/
theorem elementsFrom_later (count : Nat) (octets : Octets) :
    match elementsFrom scope [] (.ofData octets) with
    | .ok elements _ => ∃ t, elementsFrom scope [] (bare octets count) = .ok elements t
    | .error failure _ => ∃ t,
      elementsFrom scope [] (bare octets count) =
        .error ⟨failure.cause, count + failure.position⟩ t := by
  have htold := (Retelling.later count).elementsFrom_retells scope (.ofData octets)
    (bare octets count) ⟨rfl, rfl, (Nat.zero_add count).symm⟩
  rcases htold.outcomes with ⟨elements, s, t, hrun, hlater, -⟩ |
    ⟨failure, s, t, hrun, hlater, -⟩ | ⟨told, t, -, hbreaks⟩
  · rw [hrun]
    exact ⟨t, hlater⟩
  · rw [hrun]
    refine ⟨t, hlater.trans ?_⟩
    rw [Nat.add_comm]
    rfl
  · exact hbreaks.elim

end Source

/-! ## Octets in a row -/

namespace Decoder

/-- Whatever is drained, the reader is behind the last octet then. -/
theorem source_of_drain {limit maxDepth : Nat} {octets : Octets} {journal : List Remark}
    {drained : List Element} {decoder : Decoder}
    (h : drain (Scope.top limit maxDepth) ⟨.ofData octets, journal⟩ = .ok drained decoder) :
    decoder.source = .bare [] octets.length := by
  obtain ⟨-, -, -, -, -, hsource⟩ := written_of_drain h
  rw [hsource, show (Reader.ofData octets).octetsLeft = octets from Source.bare_rest octets 0]
  exact congrArg (Source.bare []) (Nat.zero_add octets.length)

/-- Draining octets with others behind them, in the same scope. If the ones are drained, the others
are drained behind them: to the last octet, or up to where draining them fails, which is as far into
the others as if they stood alone. If draining the ones fails otherwise than because they end too
early, it fails alike with the others behind them. -/
theorem drain_append (limit maxDepth : Nat) (octets others : Octets)
    (journal journal' journal'' : List Remark) :
    match drain (Scope.top limit maxDepth) ⟨.ofData octets, journal⟩ with
    | .ok elements _ =>
      match drain (Scope.top limit maxDepth) ⟨.ofData others, journal'⟩ with
      | .ok more _ => ∃ after,
        drain (Scope.top limit maxDepth) ⟨.ofData (octets ++ others), journal''⟩ =
          .ok (elements ++ more) after ∧
        after.source = ⟨[], ⟨[], (octets ++ others).length⟩⟩
      | .error failure _ => ∃ after,
        drain (Scope.top limit maxDepth) ⟨.ofData (octets ++ others), journal''⟩ =
          .error ⟨failure.cause, octets.length + failure.position⟩ after
    | .error failure _ => failure.cause = .truncated ∨ ∃ after,
      drain (Scope.top limit maxDepth) ⟨.ofData (octets ++ others), journal''⟩ =
        .error failure after := by
  have hsilent := silent_drain (Scope.top limit maxDepth)
  have hrow := @Source.elementsFrom_extend (.ofData octets) (Scope.top limit maxDepth)
    (others.map .octet) rfl
  have hlater := @Source.elementsFrom_later (Scope.top limit maxDepth) octets.length others
  rw [Source.ofData_eq_bare octets, Source.bare_extend, ← Source.ofData_eq_bare,
    ← Source.ofData_eq_bare] at hrow
  rw [← hsilent (.ofData octets) journal] at hrow
  rw [← hsilent (.ofData others) journal'] at hlater
  cases hrun : drain (Scope.top limit maxDepth) ⟨.ofData octets, journal⟩ with
  | error failure decoder =>
    rw [hrun] at hrow
    rcases hrow with hcut | hfailed
    · left
      rw [hcut.failure]
    · right
      have hlast : ∃ last, drain (Scope.top limit maxDepth)
          ⟨.ofData (octets ++ others), journal''⟩ = .error failure ⟨_, last⟩ :=
        hsilent.eq_error_iff.1 hfailed
      obtain ⟨last, hlast⟩ := hlast
      exact ⟨_, hlast⟩
  | ok elements decoder =>
    rw [hrun] at hrow
    -- the others follow where the ones have been read to their end
    dsimp only [forget] at hrow
    rw [source_of_drain hrun, Source.bare_extend, List.nil_append] at hrow
    cases hmore : drain (Scope.top limit maxDepth) ⟨.ofData others, journal'⟩ with
    | error failure after =>
      rw [hmore] at hlater
      obtain ⟨t, ht⟩ := hlater
      rw [ht] at hrow
      have hlast : ∃ last, drain (Scope.top limit maxDepth)
          ⟨.ofData (octets ++ others), journal''⟩ =
            .error ⟨failure.cause, octets.length + failure.position⟩ ⟨_, last⟩ :=
        hsilent.eq_error_iff.1 hrow
      obtain ⟨last, hlast⟩ := hlast
      exact ⟨_, hlast⟩
    | ok more after =>
      rw [hmore] at hlater
      obtain ⟨t, ht⟩ := hlater
      rw [ht] at hrow
      have hlast : ∃ last, drain (Scope.top limit maxDepth)
          ⟨.ofData (octets ++ others), journal''⟩ = .ok (elements ++ more) ⟨t, last⟩ :=
        hsilent.eq_ok_iff.1 hrow
      obtain ⟨last, hlast⟩ := hlast
      exact ⟨_, hlast, source_of_drain hlast⟩

/-- A sequence of indefinite length, with a boolean behind it and with a NULL behind it that has
content; and such a NULL, with the sequence behind it. -/
theorem drain_append_sequence :
    (∃ after, drain (Scope.top 8 1)
        ⟨.ofData [0x30, 0x80, 0x05, 0x00, 0x00, 0x00, 0x01, 0x01, 0xff], []⟩ =
        .ok [.sequence [.primitive .null], .primitive (.boolean ⟨[0xff]⟩)] after ∧
      after.source = ⟨[], ⟨[], 9⟩⟩) ∧
    (∃ after, drain (Scope.top 8 1)
        ⟨.ofData [0x30, 0x80, 0x05, 0x00, 0x00, 0x00, 0x05, 0x01, 0x00], []⟩ =
      .error ⟨.malformedContent "NULL with content", 6 + 3⟩ after) ∧
    ∃ after, drain (Scope.top 8 1)
        ⟨.ofData [0x05, 0x01, 0x00, 0x30, 0x80, 0x05, 0x00, 0x00, 0x00], []⟩ =
      .error ⟨.malformedContent "NULL with content", 3⟩ after := by
  have hrefused :=
    drain_append 8 1 [0x05, 0x01, 0x00] [0x30, 0x80, 0x05, 0x00, 0x00, 0x00] [] [] []
  refine ⟨?_, ?_, hrefused.resolve_left (by decide)⟩
  · exact drain_append 8 1 [0x30, 0x80, 0x05, 0x00, 0x00, 0x00] [0x01, 0x01, 0xff] [] [] []
  · exact drain_append 8 1 [0x30, 0x80, 0x05, 0x00, 0x00, 0x00] [0x05, 0x01, 0x00] [] [] []

end Decoder
end Ber
